import Mathlib.Data.Nat.ModEq
import BrainfuckBoard.Proofs.Serial.Oversampling
import BrainfuckBoard.Proofs.Serial.Ticks

/- The steps in which the baud clock ticks, at any two divisors, and however the bit counter is
   enabled.
   1. The oversample counter counts all steps since the reset: after `n` steps it stands at `n`
      modulo its divisor, and it ticks if the divisor divides `n`.
   2. The bit counter counts the last steps that enabled it in a row (`Streak`), in the same way.
   Each stays below its divisor, so the sum that is compared with the divisor is never cut
   (`periodic_of_reset`). The `j`-th tick comes `j` divisors after the reset, or after the last step
   that did not enable (`oversample_isTick`, `bit_isTick`). A divisor of 0 counts as 1. -/
namespace BrainfuckBoard.BaudClock

/-! ## One counter -/

/-- The steps from a tick to the next. -/
def period (divisor : UInt32) : Nat := max 1 divisor.toNat

/-- The counter has advanced `steps` times since it was at nothing. -/
structure Advanced (count divisor : UInt32) (ticked : Bool) (steps : Nat) : Prop where
  count : count.toNat = steps % period divisor
  ticked : ticked = true ↔ 0 < steps ∧ period divisor ∣ steps

section
variable {count divisor : UInt32} {ticked : Bool} {steps : Nat}

theorem period_pos : 0 < period divisor := Nat.lt_of_lt_of_le Nat.one_pos (Nat.le_max_left 1 _)

theorem period_lt : period divisor < 2 ^ 32 := Nat.max_lt.mpr ⟨by decide, divisor.toNat_lt⟩

theorem period_eq (h : 1 ≤ divisor) : period divisor = divisor.toNat :=
  Nat.max_eq_right (UInt32.le_iff_toNat_le.mp h)

/-- Only the last value before the period brings a sum that is not below the divisor. -/
theorem le_succ_iff {n : Nat} (h : n < period divisor) : divisor.toNat ≤ n + 1 ↔ n + 1 = period divisor := by
  unfold period at *
  omega

theorem advanced_zero : Advanced 0 divisor false 0 where
  count := (Nat.zero_mod _).symm
  ticked := ⟨nofun, fun h => absurd h.1 (Nat.lt_irrefl 0)⟩

theorem Advanced.below (h : Advanced count divisor ticked steps) : count.toNat < period divisor := by
  rw [h.count]
  exact Nat.mod_lt steps period_pos

/-- The sum is the period at most, and so it has 32 bits. -/
theorem Advanced.uncut (h : Advanced count divisor ticked steps) : (count + 1).toNat = count.toNat + 1 := by
  have hbelow := h.below
  have hbits := @period_lt divisor
  rw [UInt32.toNat_add, UInt32.toNat_one]
  exact Nat.mod_eq_of_lt (by omega)

theorem Advanced.next (h : Advanced count divisor ticked steps) :
    Advanced (advance count divisor).1 divisor (advance count divisor).2 (steps + 1) := by
  have hbelow := h.below
  have hlast := le_succ_iff hbelow
  -- The count is what the whole periods leave of the steps, so it reaches the period with them.
  have hsteps : steps + 1 = period divisor * (steps / period divisor) + (count.toNat + 1) := by
    rw [h.count, ← Nat.add_assoc, Nat.div_add_mod]
  unfold BaudClock.advance
  split
  · next hle =>
    rw [ge_iff_le, UInt32.le_iff_toNat_le, h.uncut, hlast] at hle
    have hwhole : period divisor ∣ steps + 1 := by
      rw [hsteps, hle, ← Nat.mul_succ]
      exact Nat.dvd_mul_right _ _
    refine ⟨?_, fun _ => ⟨Nat.succ_pos steps, hwhole⟩, fun _ => rfl⟩
    rw [Nat.mod_eq_zero_of_dvd hwhole]
    rfl
  · next hlt =>
    rw [ge_iff_le, UInt32.le_iff_toNat_le, h.uncut, hlast] at hlt
    have hmod : (steps + 1) % period divisor = count.toNat + 1 := by
      rw [hsteps, Nat.mul_add_mod]
      exact Nat.mod_eq_of_lt (by omega)
    refine ⟨h.uncut.trans hmod.symm, nofun, fun ⟨_, hwhole⟩ => ?_⟩
    rw [Nat.mod_eq_zero_of_dvd hwhole] at hmod
    omega

end

/-! ## The steps that enable the bit counter -/

/-- The last `length` of the first `n` steps enable the bit counter, and the step before them does
    not, if there is one. -/
structure Streak (sending : Nat → Bool) (n length : Nat) : Prop where
  within : length ≤ n
  enabled : ∀ k, n - length ≤ k → k < n → sending k = true
  broken : length < n → sending (n - length - 1) = false

section
variable {sending : Nat → Bool} {n length : Nat}

theorem streak_zero_iff : Streak sending 0 length ↔ length = 0 := by
  constructor
  · intro h
    exact Nat.le_zero.mp h.within
  · rintro rfl
    exact ⟨Nat.le_refl 0, fun _ _ hk => absurd hk (Nat.not_lt_zero _), fun h => absurd h (Nat.lt_irrefl 0)⟩

/-- A step that does not enable ends the streak. -/
theorem streak_broken_iff (hn : sending n = false) : Streak sending (n + 1) length ↔ length = 0 := by
  constructor
  · intro h
    by_contra hpos
    have henabled := h.enabled n (by omega) (Nat.lt_succ_self n)
    rw [hn] at henabled
    exact Bool.false_ne_true henabled
  · rintro rfl
    exact ⟨Nat.zero_le _, fun k hle hlt => absurd hle (Nat.not_le_of_lt hlt), fun _ => hn⟩

/-- A step that enables makes the streak longer by one. -/
theorem streak_enabled_iff (hn : sending n = true) :
    Streak sending (n + 1) length ↔ ∃ before, length = before + 1 ∧ Streak sending n before := by
  constructor
  · intro h
    obtain ⟨before, rfl⟩ : ∃ before, length = before + 1 := by
      refine Nat.exists_eq_succ_of_ne_zero fun hzero => ?_
      have hbroken := h.broken (by omega)
      rw [hzero, Nat.sub_zero, Nat.add_sub_cancel, hn] at hbroken
      exact Bool.false_ne_true hbroken.symm
    refine ⟨before, rfl, Nat.le_of_succ_le_succ h.within, fun k hle hlt => ?_, fun hlt => ?_⟩
    · exact h.enabled k (by omega) (Nat.lt_succ_of_lt hlt)
    · have hbroken := h.broken (Nat.succ_lt_succ hlt)
      rwa [Nat.add_sub_add_right] at hbroken
  · rintro ⟨before, rfl, h⟩
    refine ⟨Nat.succ_le_succ h.within, fun k hle hlt => ?_, fun hlt => ?_⟩
    · rcases Nat.lt_succ_iff_lt_or_eq.mp hlt with hbefore | rfl
      · exact h.enabled k (by omega) hbefore
      · exact hn
    · rw [Nat.add_sub_add_right]
      exact h.broken (Nat.lt_of_succ_lt_succ hlt)

theorem exists_streak (sending : Nat → Bool) : ∀ n, ∃ length, Streak sending n length
  | 0 => ⟨0, streak_zero_iff.mpr rfl⟩
  | n + 1 => by
    cases hn : sending n with
    | false => exact ⟨0, (streak_broken_iff hn).mpr rfl⟩
    | true =>
      obtain ⟨before, h⟩ := exists_streak sending n
      exact ⟨before + 1, (streak_enabled_iff hn).mpr ⟨before, rfl, h⟩⟩

theorem Streak.unique : ∀ {n length other}, Streak sending n length → Streak sending n other → other = length
  | 0, _, _, h, h' => (streak_zero_iff.mp h').trans (streak_zero_iff.mp h).symm
  | n + 1, _, _, h, h' => by
    cases hn : sending n with
    | false => exact ((streak_broken_iff hn).mp h').trans ((streak_broken_iff hn).mp h).symm
    | true =>
      obtain ⟨before, rfl, hbefore⟩ := (streak_enabled_iff hn).mp h
      obtain ⟨before', rfl, hbefore'⟩ := (streak_enabled_iff hn).mp h'
      exact congrArg (· + 1) (hbefore.unique hbefore')

theorem Streak.extend (h : Streak sending n length) : ∀ more,
    (∀ k, n ≤ k → k < n + more → sending k = true) → Streak sending (n + more) (length + more)
  | 0, _ => h
  | more + 1, henabled => by
    have ih := h.extend more fun k hle hlt => henabled k hle (Nat.lt_succ_of_lt hlt)
    have hlast := henabled (n + more) (Nat.le_add_right n more) (Nat.lt_succ_self _)
    exact (streak_enabled_iff hlast).mpr ⟨length + more, rfl, ih⟩

end

/-! ## Both counters -/

/-- The clock is `steps` steps past a reset, with a streak of `length` steps. -/
structure Timed (c : BaudClock) (steps length : Nat) : Prop where
  oversample : Advanced c.oversampleCount c.oversampleDivisor c.oversampleTick steps
  bit : Advanced c.bitCount c.bitDivisor c.bitTick length

section
variable {c : BaudClock} {sending : Nat → Bool} {n t j length : Nat}

theorem timed_reset (c : BaudClock) : c.reset.Timed 0 0 := ⟨advanced_zero, advanced_zero⟩

theorem Timed.clock_enabled (h : c.Timed n length) : (c.clock true).Timed (n + 1) (length + 1) :=
  ⟨h.oversample.next, h.bit.next⟩

theorem Timed.clock_disabled (h : c.Timed n length) : (c.clock false).Timed (n + 1) 0 :=
  ⟨h.oversample.next, advanced_zero⟩

/-- The oversample counter counts all the steps, the bit counter those of the streak. -/
theorem timed_run (c : BaudClock) : ∀ {n length}, Streak sending n length →
    (c.reset.run sending n).Timed n length
  | 0, _, h => by
    obtain rfl := streak_zero_iff.mp h
    exact timed_reset c
  | n + 1, _, h => by
    rw [run]
    cases hn : sending n with
    | false =>
      obtain rfl := (streak_broken_iff hn).mp h
      obtain ⟨before, hbefore⟩ := exists_streak sending n
      exact (timed_run c hbefore).clock_disabled
    | true =>
      obtain ⟨before, rfl, hbefore⟩ := (streak_enabled_iff hn).mp h
      exact (timed_run c hbefore).clock_enabled

theorem run_divisors (c : BaudClock) (sending : Nat → Bool) : ∀ n,
    (c.run sending n).oversampleDivisor = c.oversampleDivisor ∧ (c.run sending n).bitDivisor = c.bitDivisor
  | 0 => ⟨rfl, rfl⟩
  | n + 1 => run_divisors c sending n

theorem oversampleTick_iff (c : BaudClock) (sending : Nat → Bool) (n : Nat) :
    (c.reset.run sending n).oversampleTick = true ↔ 0 < n ∧ period c.oversampleDivisor ∣ n := by
  obtain ⟨length, hstreak⟩ := exists_streak sending n
  have hticked := (timed_run c hstreak).oversample.ticked
  rwa [(run_divisors c.reset sending n).1] at hticked

theorem bitTick_iff (c : BaudClock) (hstreak : Streak sending n length) :
    (c.reset.run sending n).bitTick = true ↔ 0 < length ∧ period c.bitDivisor ∣ length := by
  have hticked := (timed_run c hstreak).bit.ticked
  rwa [(run_divisors c.reset sending n).2] at hticked

theorem ticksBetween_oversample (c : BaudClock) (sending : Nat → Bool) (n : Nat) :
    ticksBetween (fun k => (c.reset.run sending k).oversampleTick) 0 (n + 1) =
      n / period c.oversampleDivisor := by
  have hticks := @ticksBetween_of_dvd (fun k => (c.reset.run sending k).oversampleTick) 0
    (period c.oversampleDivisor) n
  rw [Nat.zero_add] at hticks
  refine hticks fun i hi _ => ?_
  rw [Nat.zero_add, oversampleTick_iff]
  exact and_iff_right hi

theorem oversample_isTick (c : BaudClock) (sending : Nat → Bool) (hj : 0 < j) :
    IsTick (fun k => (c.reset.run sending k).oversampleTick) 0 j (j * period c.oversampleDivisor) := by
  rw [← Nat.zero_add (j * period c.oversampleDivisor)]
  refine isTick_of_dvd period_pos hj fun i hi _ => ?_
  rw [Nat.zero_add, oversampleTick_iff]
  exact and_iff_right hi

/-- Where the bit counter is enabled again. -/
theorem bit_isTick (c : BaudClock) (hj : 0 < j) (ht : Streak sending t 0)
    (henabled : ∀ k, t ≤ k → k < t + j * period c.bitDivisor → sending k = true) :
    IsTick (fun k => (c.reset.run sending k).bitTick) t j (t + j * period c.bitDivisor) := by
  refine isTick_of_dvd period_pos hj fun i hi hle => ?_
  have hstreak := ht.extend i fun k hk hlt => henabled k hk (by omega)
  rw [bitTick_iff c hstreak, Nat.zero_add]
  exact and_iff_right hi

/-- The clock `n` steps after a reset. -/
structure Periodic (c : BaudClock) (sending : Nat → Bool) (n : Nat) : Prop where
  oversampleTick : (c.reset.run sending n).oversampleTick = true ↔ 0 < n ∧ c.oversampleDivisor.toNat ∣ n
  streak : ∃! length, Streak sending n length
  bitTick : (c.reset.run sending n).bitTick = true ↔
    ∃ length, Streak sending n length ∧ 0 < length ∧ c.bitDivisor.toNat ∣ length
  oversampleCount : (c.reset.run sending n).oversampleCount.toNat = n % c.oversampleDivisor.toNat
  bitCount : ∀ length, Streak sending n length →
    (c.reset.run sending n).bitCount.toNat = length % c.bitDivisor.toNat
  uncut : ((c.reset.run sending n).oversampleCount + 1).toNat =
      (c.reset.run sending n).oversampleCount.toNat + 1 ∧
    ((c.reset.run sending n).bitCount + 1).toNat = (c.reset.run sending n).bitCount.toNat + 1

/-- At all divisors from 1 on, and whatever enables the bit counter. -/
theorem periodic_of_reset (c : BaudClock) (ho : 1 ≤ c.oversampleDivisor) (hb : 1 ≤ c.bitDivisor)
    (sending : Nat → Bool) (n : Nat) : Periodic c sending n := by
  obtain ⟨length, hstreak⟩ := exists_streak sending n
  have htimed := timed_run c hstreak
  obtain ⟨hoversample, hbit⟩ := run_divisors c.reset sending n
  refine ⟨?_, ⟨length, hstreak, fun other h => hstreak.unique h⟩, ?_, ?_, fun other h => ?_,
    htimed.oversample.uncut, htimed.bit.uncut⟩
  · rw [oversampleTick_iff, period_eq ho]
  · rw [bitTick_iff c hstreak, period_eq hb]
    refine ⟨fun h => ⟨length, hstreak, h⟩, fun ⟨other, h, hticked⟩ => ?_⟩
    rwa [hstreak.unique h] at hticked
  · rw [htimed.oversample.count, hoversample]
    exact congrArg (n % ·) (period_eq ho)
  · rw [(timed_run c h).bit.count, hbit]
    exact congrArg (other % ·) (period_eq hb)

/-- The largest divisors, and a step that does not enable before the steps that do: the bit tick comes
    one step after the oversample tick. -/
theorem periodic_of_reset_largest :
    let c : BaudClock := { oversampleDivisor := 4294967295, bitDivisor := 4294967295, bitCount := 7 }
    let sending : Nat → Bool := fun k => k != 0
    (1 ≤ c.oversampleDivisor ∧ 1 ≤ c.bitDivisor) ∧ Periodic c sending 4294967296 ∧
      (c.reset.run sending 4294967296).oversampleTick = false ∧
      (c.reset.run sending 4294967296).bitTick = true := by
  intro c sending
  have hdivisors : 1 ≤ c.oversampleDivisor ∧ 1 ≤ c.bitDivisor := by decide
  have hperiodic : Periodic c sending 4294967296 :=
    periodic_of_reset c hdivisors.1 hdivisors.2 sending 4294967296
  have hstart : Streak sending 1 0 := (streak_broken_iff rfl).mpr rfl
  have hstreak : Streak sending 4294967296 4294967295 := by
    refine hstart.extend 4294967295 fun k hk _ => ?_
    exact bne_iff_ne.mpr (Nat.ne_of_gt hk)
  refine ⟨hdivisors, hperiodic, ?_, hperiodic.bitTick.mpr ⟨4294967295, hstreak, by decide, by decide⟩⟩
  rw [Bool.eq_false_iff, Ne, hperiodic.oversampleTick]
  decide

example :
    let c : BaudClock := { oversampleDivisor := 3, bitDivisor := 2, oversampleCount := 1 }
    let sending : Nat → Bool := fun k => k != 3
    (List.range 8).filter (fun n => (c.reset.run sending n).oversampleTick) = [3, 6] ∧
      (List.range 8).filter (fun n => (c.reset.run sending n).bitTick) = [2, 6] := by decide

end

end BrainfuckBoard.BaudClock
