import Mathlib.Algebra.Group.Nat.Defs
import BrainfuckBoard.Circuit.BaudClock

/- The pace of the serial wire. What matters of a counter is its lag: how far it has
   come towards a tick. The lag grows by one in every step, and after a tick, which
   shows when the lag is the whole divisor, it is one again. -/
namespace BrainfuckBoard.BaudClock

section
variable {count divisor : UInt32} {ticked : Bool}

/-- The steps a counter has counted towards its tick. While the tick shows, it is the
    divisor. -/
def counted (count divisor : UInt32) (ticked : Bool) : Nat :=
  if ticked then divisor.toNat else count.toNat

/-- A counter is below its divisor, and at nothing when it has ticked. -/
structure Counting (count divisor : UInt32) (ticked : Bool) : Prop where
  below : count.toNat < divisor.toNat
  ticked_zero : ticked = true → count = 0

theorem counting_zero (h : 0 < divisor.toNat) : Counting 0 divisor false := ⟨h, nofun⟩

theorem Counting.counted_le (h : Counting count divisor ticked) :
    counted count divisor ticked ≤ divisor.toNat := by
  have := h.below
  unfold counted
  split <;> omega

theorem Counting.ticked_iff (h : Counting count divisor ticked) :
    ticked = true ↔ counted count divisor ticked = divisor.toNat := by
  have := h.below
  unfold counted
  split
  · next ht => exact ⟨fun _ => rfl, fun _ => ht⟩
  · next ht => exact ⟨fun ht' => absurd ht' ht, fun heq => by omega⟩

theorem toNat_succ (h : count.toNat < divisor.toNat) : (count + 1).toNat = count.toNat + 1 := by
  have := divisor.toNat_lt
  rw [UInt32.toNat_add, UInt32.toNat_one]
  omega

theorem Counting.advance (h : Counting count divisor ticked) :
    Counting (advance count divisor).1 divisor (advance count divisor).2 := by
  have hsucc := toNat_succ h.below
  unfold BaudClock.advance
  split
  · exact ⟨Nat.lt_of_le_of_lt (Nat.zero_le _) h.below, fun _ => rfl⟩
  · next hlt =>
    refine ⟨?_, nofun⟩
    rw [ge_iff_le, UInt32.le_iff_toNat_le] at hlt
    exact Nat.lt_of_not_le hlt

theorem Counting.counted_advance (h : Counting count divisor ticked) :
    counted (BaudClock.advance count divisor).1 divisor (BaudClock.advance count divisor).2 =
      if ticked then 1 else counted count divisor ticked + 1 := by
  have hsucc := toNat_succ h.below
  have hbelow := h.below
  have hcount : count.toNat = if ticked then 0 else counted count divisor ticked := by
    cases ticked
    · rfl
    · rw [h.ticked_zero rfl]; rfl
  unfold BaudClock.advance
  split
  · next hle =>
    rw [ge_iff_le, UInt32.le_iff_toNat_le] at hle
    simp only [counted, if_true]
    split at hcount
    · next ht => rw [if_pos ht]; omega
    · next ht => rw [if_neg ht, if_neg ht]; omega
  · simp only [counted, Bool.false_eq_true, if_false, hsucc]
    split at hcount
    · next ht => rw [if_pos ht]; omega
    · next ht => rw [if_neg ht, if_neg ht]

end

section
variable {c : BaudClock} {D : Nat} {sending : Bool}

/-- Both counters count, sixteen ticks of the one to a tick of the other. -/
structure Paced (D : Nat) (c : BaudClock) : Prop where
  oversampleDivisor : c.oversampleDivisor.toNat = D
  bitDivisor : c.bitDivisor.toNat = 16 * D
  oversample : Counting c.oversampleCount c.oversampleDivisor c.oversampleTick
  bit : Counting c.bitCount c.bitDivisor c.bitTick

def lag (c : BaudClock) : Nat := counted c.oversampleCount c.oversampleDivisor c.oversampleTick

def bitLag (c : BaudClock) : Nat := counted c.bitCount c.bitDivisor c.bitTick

theorem Paced.pos (h : c.Paced D) : 0 < D := by
  have := h.oversample.below
  have := h.oversampleDivisor
  omega

theorem paced_reset (ho : c.oversampleDivisor.toNat = D) (hb : c.bitDivisor.toNat = 16 * D)
    (hD : 1 ≤ D) : c.reset.Paced D where
  oversampleDivisor := ho
  bitDivisor := hb
  oversample := counting_zero (by rw [reset, ho]; exact hD)
  bit := counting_zero (by rw [reset, hb]; omega)

/-- The oversample counter stands `count` steps after its last tick, or at the tick, at `D` steps
    to a tick. -/
def standing (D count : Nat) (ticked : Bool) : BaudClock :=
  { oversampleDivisor := UInt32.ofNat D
    bitDivisor := UInt32.ofNat (16 * D)
    oversampleCount := UInt32.ofNat count
    oversampleTick := ticked }

theorem paced_standing {count : Nat} {ticked : Bool} (hbits : 16 * D < 2 ^ 32) (hcount : count < D)
    (hticked : ticked = true → count = 0) : (standing D count ticked).Paced D := by
  have hoversample : (UInt32.ofNat D).toNat = D := by
    rw [UInt32.toNat_ofNat']
    omega
  have hbit : (UInt32.ofNat (16 * D)).toNat = 16 * D := by
    rw [UInt32.toNat_ofNat']
    omega
  have hphase : (UInt32.ofNat count).toNat = count := by
    rw [UInt32.toNat_ofNat']
    omega
  refine ⟨hoversample, hbit, ⟨?_, ?_⟩, ?_⟩
  · rw [standing, hphase, hoversample]
    exact hcount
  · intro ht
    rw [standing, hticked ht]
    rfl
  · exact counting_zero (by rw [standing, hbit]; omega)

theorem Paced.lag_le (h : c.Paced D) : c.lag ≤ D := by
  rw [← h.oversampleDivisor]
  exact h.oversample.counted_le

theorem Paced.tick_iff (h : c.Paced D) : c.oversampleTick = true ↔ c.lag = D := by
  rw [← h.oversampleDivisor]
  exact h.oversample.ticked_iff

theorem Paced.bitLag_le (h : c.Paced D) : c.bitLag ≤ 16 * D := by
  rw [← h.bitDivisor]
  exact h.bit.counted_le

theorem Paced.bitTick_iff (h : c.Paced D) : c.bitTick = true ↔ c.bitLag = 16 * D := by
  rw [← h.bitDivisor]
  exact h.bit.ticked_iff

theorem Paced.clock (h : c.Paced D) (sending : Bool) : (c.clock sending).Paced D where
  oversampleDivisor := h.oversampleDivisor
  bitDivisor := h.bitDivisor
  oversample := h.oversample.advance
  bit := by
    cases sending
    · exact counting_zero (Nat.lt_of_le_of_lt (Nat.zero_le _) h.bit.below)
    · exact h.bit.advance

theorem Paced.lag_clock (h : c.Paced D) (sending : Bool) :
    (c.clock sending).lag = if c.oversampleTick then 1 else c.lag + 1 :=
  h.oversample.counted_advance

theorem Paced.bitLag_clock (h : c.Paced D) :
    (c.clock true).bitLag = if c.bitTick then 1 else c.bitLag + 1 :=
  h.bit.counted_advance

theorem bitLag_clock_idle : (c.clock false).bitLag = 0 := rfl

/-- The clock after `n` steps, if `sending k` is what enables the bit counter in step `k`. -/
def run (c : BaudClock) (sending : Nat → Bool) : Nat → BaudClock
  | 0 => c
  | n + 1 => (c.run sending n).clock (sending n)

theorem Paced.run (h : c.Paced D) (sending : Nat → Bool) : ∀ n, (c.run sending n).Paced D
  | 0 => h
  | n + 1 => (Paced.run h sending n).clock (sending n)

end

end BrainfuckBoard.BaudClock
