import BrainfuckBoard.Proofs.Serial.Oversampling
import BrainfuckBoard.Terminal.Sender

/- The wire as the terminal drives it. The levels that are still to come are a list,
   one level to a step, and the line is high when the list has run out. A step of the
   sending half takes the first level off the list (`line_eq`, `ahead_advance`), and
   queued frames put their waves at its end (`ahead_enqueue`). -/
namespace BrainfuckBoard

/-- A byte is one of 256. -/
theorem forall_byte {p : UInt8 → Prop} (h : ∀ n : Fin 256, p (UInt8.ofNat n)) (byte : UInt8) :
    p byte := by
  have hbyte := h ⟨byte.toNat, byte.toNat_lt⟩
  rwa [UInt8.ofNat_toNat] at hbyte

namespace Frame

section
variable {f : Frame} {period e : Nat}

/-- The levels of a frame, with `period` steps to a bit. -/
def wave (period : Nat) (f : Frame) : List Bool :=
  (List.range (f.length * period)).map fun e => f.level (e / period)

theorem ten_le_length : 10 ≤ f.length := Nat.le_add_right _ _

theorem length_pos : 0 < f.length := Nat.lt_of_lt_of_le (by decide) ten_le_length

theorem length_wave : (f.wave period).length = f.length * period := by
  simp [wave]

theorem drop_wave (he : e < f.length * period) :
    (f.wave period).drop e = f.level (e / period) :: (f.wave period).drop (e + 1) := by
  rw [List.drop_eq_getElem_cons (by rwa [length_wave])]
  simp [wave]

theorem level_start : f.level 0 = false := rfl

theorem wave_start (hp : 0 < period) : f.wave period = false :: (f.wave period).drop 1 := by
  have hdrop := drop_wave (f := f) (Nat.mul_pos length_pos hp)
  rwa [Nat.zero_div, level_start, List.drop_zero] at hdrop

theorem level_data {i : Nat} (hi : i < 8) : f.level (i + 1) = byteBit f.byte i := by
  simp [level, show i + 1 ≤ 8 by omega]

theorem level_stop : f.level 9 = f.stop := rfl

theorem level_gap {i : Nat} (hi : 9 < i) : f.level i = true := by
  simp [level, show i ≠ 0 by omega, show ¬ i ≤ 8 by omega, show i ≠ 9 by omega]

/-- With a good stop bit the line is high from there on. -/
theorem level_high {i : Nat} (hstop : f.stop = true) (hi : 9 ≤ i) : f.level i = true := by
  rcases Nat.eq_or_lt_of_le hi with rfl | hlt
  · rw [level_stop, hstop]
  · exact level_gap hlt

theorem high_of_mem_drop {n : Nat} {level : Bool} (hstop : f.stop = true) (hp : 0 < period)
    (he : 9 * period ≤ e) (h : level ∈ ((List.range n).map fun e => f.level (e / period)).drop e) :
    level = true := by
  obtain ⟨k, hk, rfl⟩ := List.mem_iff_getElem.mp h
  simp only [List.getElem_drop, List.getElem_map, List.getElem_range]
  exact level_high hstop ((Nat.le_div_iff_mul_le hp).mpr (by omega))

/-- The rest of a frame whose stop bit has begun: the stop bit, then the gap. -/
theorem drop_wave_stop (hp : 0 < period) (h₀ : 9 * period ≤ e) (h₁ : e ≤ 10 * period) :
    (f.wave period).drop e =
      List.replicate (10 * period - e) f.stop ++ List.replicate (f.gap * period) true := by
  have hlength : f.length * period = 10 * period + f.gap * period := Nat.add_mul _ _ _
  refine List.ext_getElem ?_ fun k hk hk' => ?_
  · simp only [List.length_drop, length_wave, List.length_append, List.length_replicate]
    omega
  · simp only [List.getElem_drop, wave, List.getElem_map, List.getElem_range, List.getElem_append,
      List.length_replicate, List.getElem_replicate]
    split
    · next hstop =>
      have hslot : (e + k) / period = 9 := Nat.div_eq_of_lt_le (by omega) (by omega)
      rw [hslot, level_stop]
    · next hgap =>
      have hslot : 10 ≤ (e + k) / period := (Nat.le_div_iff_mul_le hp).mpr (by omega)
      exact level_gap hslot

end

end Frame

namespace Sender

section
variable {s : Sender} {period : Nat}

/-- The place is inside the first frame of the queue, and is nought without one. -/
def Placed (period : Nat) (s : Sender) : Prop :=
  match s.queue with
  | [] => s.bit = 0 ∧ s.step = 0
  | frame :: _ => s.bit < frame.length ∧ s.step.toNat < period

/-- The levels that the line is still to take. -/
def ahead (period : Nat) (s : Sender) : List Bool :=
  match s.queue with
  | [] => []
  | frame :: rest => (frame.wave period).drop (s.bit * period + s.step.toNat) ++
      rest.flatMap (Frame.wave period)

theorem place_lt {bit length step period : Nat} (hbit : bit < length) (hstep : step < period) :
    bit * period + step < length * period := by
  have h := Nat.mul_le_mul_right period hbit
  rw [Nat.succ_mul] at h
  omega

theorem div_place {bit step period : Nat} (hstep : step < period) :
    (bit * period + step) / period = bit := by
  apply Nat.div_eq_of_lt_le (Nat.le_add_right _ _)
  rw [Nat.succ_mul]
  omega

theorem ahead_cons {frame : Frame} {rest : List Frame} (h : s.Placed period)
    (hq : s.queue = frame :: rest) :
    s.ahead period = frame.level s.bit ::
      ((frame.wave period).drop (s.bit * period + s.step.toNat + 1) ++
        rest.flatMap (Frame.wave period)) := by
  simp only [Placed, hq] at h
  simp only [ahead, hq, Frame.drop_wave (place_lt h.1 h.2), div_place h.2, List.cons_append]

theorem line_eq (h : s.Placed period) : s.line = (s.ahead period).headD true := by
  cases hq : s.queue with
  | nil => simp [line, ahead, hq]
  | cons frame rest => simp [line, hq, ahead_cons h hq]

theorem ahead_eq_nil_iff (h : s.Placed period) : s.ahead period = [] ↔ s.idle = true := by
  cases hq : s.queue with
  | nil => simp [idle, ahead, hq]
  | cons frame rest => simp [idle, hq, ahead_cons h hq]

/-- A step takes the level that the line had in it. -/
theorem ahead_advance (h : s.Placed period) {steps : UInt32} (hsteps : steps.toNat = period) :
    (s.advance steps).Placed period ∧ (s.advance steps).ahead period = (s.ahead period).tail := by
  cases hq : s.queue with
  | nil =>
    have hs : s.advance steps = s := by simp [advance, hq]
    rw [hs]
    exact ⟨h, by simp [ahead, hq]⟩
  | cons frame rest =>
    have htail := ahead_cons h hq
    simp only [Placed, hq] at h
    obtain ⟨hbit, hstep⟩ := h
    have hsucc := BaudClock.toNat_succ (hsteps ▸ hstep)
    simp only [advance, hq, UInt32.lt_iff_toNat_lt, hsucc, hsteps]
    -- Inside a bit, at the end of a bit, and at the end of the frame.
    split
    · next hlt =>
      refine ⟨?_, ?_⟩
      · simp only [Placed, hsucc]
        exact ⟨hbit, hlt⟩
      · rw [htail, List.tail_cons]
        simp only [ahead, hsucc, Nat.add_assoc]
    · next hge =>
      have hnext : s.bit * period + s.step.toNat + 1 = (s.bit + 1) * period := by
        rw [Nat.succ_mul]
        omega
      rw [htail, List.tail_cons, hnext]
      split
      · next hmore =>
        refine ⟨?_, ?_⟩
        · simp only [Placed, UInt32.toNat_zero]
          omega
        · simp only [ahead, UInt32.toNat_zero, Nat.add_zero]
      · next hlast =>
        have hend : (frame.wave period).drop ((s.bit + 1) * period) = [] := by
          apply List.drop_eq_nil_of_le
          rw [Frame.length_wave]
          exact Nat.mul_le_mul_right _ (by omega)
        rw [hend, List.nil_append]
        cases rest with
        | nil => exact ⟨⟨rfl, rfl⟩, rfl⟩
        | cons frame' rest' =>
          refine ⟨⟨Frame.length_pos, by simp; omega⟩, ?_⟩
          simp [ahead]

theorem ahead_enqueue (h : s.Placed period) (hp : 0 < period) (frames : List Frame) :
    (s.enqueue frames).Placed period ∧
      (s.enqueue frames).ahead period = s.ahead period ++ frames.flatMap (Frame.wave period) := by
  cases hq : s.queue with
  | nil =>
    simp only [Placed, hq] at h
    cases frames with
    | nil => simp [Placed, ahead, enqueue, hq, h]
    | cons frame rest => simp [Placed, ahead, enqueue, hq, h, Frame.length_pos, hp]
  | cons frame rest =>
    simp only [Placed, hq] at h
    simp [Placed, ahead, enqueue, hq, h]

theorem placed_empty (period : Nat) : ({} : Sender).Placed period := ⟨rfl, rfl⟩

end

end Sender

end BrainfuckBoard
