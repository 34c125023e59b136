import Mathlib.Algebra.Group.Nat.Defs
import BrainfuckBoard.Proofs.Serial.Waveform
import BrainfuckBoard.Terminal.Listener

/- The listening half of the terminal in a frame. It looks at the line half a bit after
   the line fell and once in a bit after that, and `Gathering` says which data bits it
   has by now. If the levels it looks at are those of a frame, the frame is decoded
   (`Gathering.sample`). -/
namespace BrainfuckBoard.Listener

section
variable {l : Listener} {count period : UInt32} {f : Frame} {n m s : Nat} {level : Bool}

/-- The shift register after the first `m` data bits. -/
def gathered (byte : UInt8) : Nat → UInt8
  | 0 => 0
  | m + 1 => setBit (gathered byte m) (UInt32.ofNat (m + 1)) (byteBit byte m)

theorem gathered_eight (byte : UInt8) : gathered byte 8 = byte := by
  apply forall_byte (p := fun byte => gathered byte 8 = byte)
  decide +kernel

/-! ## The middle of a bit -/

theorem slot?_early (h : count.toNat < period.toNat / 2) : slot? count period = none := by
  unfold slot?
  apply if_neg
  rintro ⟨hle, _⟩
  rw [UInt32.le_iff_toNat_le, UInt32.toNat_div] at hle
  exact absurd hle (Nat.not_le_of_lt h)

theorem toNat_past_half (h : period.toNat / 2 ≤ count.toNat) :
    (count - period / 2).toNat = count.toNat - period.toNat / 2 := by
  have hle : period / 2 ≤ count := by
    rw [UInt32.le_iff_toNat_le, UInt32.toNat_div]
    exact h
  rw [UInt32.toNat_sub_of_le _ _ hle, UInt32.toNat_div]
  rfl

theorem slot?_between (h₀ : period.toNat / 2 + period.toNat * m < count.toNat)
    (h₁ : count.toNat < period.toNat / 2 + period.toNat * (m + 1)) : slot? count period = none := by
  unfold slot?
  apply if_neg
  rintro ⟨_, hmod⟩
  -- `r` steps after the last look, and less than a period of them.
  have hpast : (count - period / 2).toNat = count.toNat - period.toNat / 2 := toNat_past_half (by omega)
  obtain ⟨r, hr⟩ : ∃ r, count.toNat = period.toNat / 2 + period.toNat * m + r :=
    ⟨count.toNat - (period.toNat / 2 + period.toNat * m), by omega⟩
  rw [Nat.mul_succ] at h₁
  have hzero : r = 0 := by
    calc r = (period.toNat * m + r) % period.toNat := by
          rw [Nat.mul_add_mod, Nat.mod_eq_of_lt (by omega)]
      _ = (count - period / 2).toNat % period.toNat := by
          rw [hpast, hr, Nat.add_assoc, Nat.add_sub_cancel_left]
      _ = ((count - period / 2) % period).toNat := (UInt32.toNat_mod _ _).symm
      _ = 0 := by rw [hmod]; rfl
  omega

theorem slot?_middle (hp : 0 < period.toNat) (h : count.toNat = period.toNat / 2 + period.toNat * s) :
    slot? count period = some (UInt32.ofNat s) := by
  have hpast : (count - period / 2).toNat = count.toNat - period.toNat / 2 := toNat_past_half (by omega)
  have hsub : (count - period / 2).toNat = period.toNat * s := by omega
  unfold slot?
  rw [if_pos]
  · have hslot : ((count - period / 2) / period).toNat = s := by
      rw [UInt32.toNat_div, hsub, Nat.mul_div_cancel_left _ hp]
    rw [← hslot, UInt32.ofNat_toNat]
  · refine ⟨?_, UInt32.toNat_inj.mp ?_⟩
    · rw [UInt32.le_iff_toNat_le, UInt32.toNat_div, h]
      exact Nat.le_add_right _ _
    · rw [UInt32.toNat_mod, hsub, Nat.mul_mod_right]
      rfl

theorem look_start {shift : UInt8} :
    l.look count shift (UInt32.ofNat 0) false = { l with phase := .receiving count shift } := rfl

theorem look_data {shift : UInt8} (hm : m < 8) :
    l.look count shift (UInt32.ofNat (m + 1)) level =
      { l with phase := .receiving count (setBit shift (UInt32.ofNat (m + 1)) level) } := by
  have hslot : (UInt32.ofNat (m + 1)).toNat = m + 1 := by
    rw [UInt32.toNat_ofNat']
    omega
  have hpos : UInt32.ofNat (m + 1) ≠ 0 := by
    intro heq
    rw [heq, UInt32.toNat_zero] at hslot
    omega
  have hle : UInt32.ofNat (m + 1) ≤ 8 := by
    rw [UInt32.le_iff_toNat_le, hslot]
    exact hm
  rw [look, if_neg hpos, if_pos hle]

theorem look_stop {shift : UInt8} :
    l.look count shift (UInt32.ofNat 9) level =
      if level then { l with received := l.received.push shift, phase := .idle }
      else { l with framingErrors := l.framingErrors + 1, phase := .blocked } := rfl

/-! ## In a frame -/

/-- `n` steps after the line fell for a frame, the first `m` data bits have been looked
    at. -/
structure Gathering (period : Nat) (f : Frame) (n m : Nat) (l : Listener) : Prop where
  phase : l.phase = .receiving (UInt32.ofNat n) (gathered f.byte m)
  le_eight : m ≤ 8
  lower : 0 < m → period / 2 + period * m ≤ n
  upper : n < period / 2 + period * (m + 1)

/-- The listener when the stop bit has been looked at. -/
def closed (l : Listener) (f : Frame) : Listener :=
  if f.stop then { l with received := l.received.push f.byte, phase := .idle }
  else { l with framingErrors := l.framingErrors + 1, phase := .blocked }

theorem gathering_start (hp : l.phase = .idle) (hperiod : 0 < period.toNat) :
    Gathering period.toNat f 0 0 (l.sample period false) ∧
      (l.sample period false).received = l.received ∧
      (l.sample period false).framingErrors = l.framingErrors := by
  have hsample : l.sample period false = { l with phase := .receiving 0 0 } := by simp [sample, hp]
  rw [hsample]
  exact ⟨⟨rfl, by decide, nofun, by omega⟩, rfl, rfl⟩

/-- A step in a frame. If it is the one that ends it, the frame is decoded. -/
theorem Gathering.sample (h : Gathering period.toNat f n m l) (hperiod : 0 < period.toNat)
    (hbound : period.toNat / 2 + period.toNat * 9 < 2 ^ 32)
    (hlevel : ∀ s, n + 1 = period.toNat / 2 + period.toNat * s → level = f.level s) :
    (n + 1 < period.toNat / 2 + period.toNat * 9 ∧
      (∃ m', Gathering period.toNat f (n + 1) m' (l.sample period level)) ∧
      (l.sample period level).received = l.received ∧
      (l.sample period level).framingErrors = l.framingErrors) ∨
    (n + 1 = period.toNat / 2 + period.toNat * 9 ∧ l.sample period level = l.closed f) := by
  have hm := h.le_eight
  have hupper := h.upper
  have hnine : period.toNat * (m + 1) ≤ period.toNat * 9 :=
    Nat.mul_le_mul_left _ (Nat.succ_le_succ hm)
  have hcount : UInt32.ofNat n + 1 = UInt32.ofNat (n + 1) := (UInt32.ofNat_add n 1).symm
  have htoNat : (UInt32.ofNat (n + 1)).toNat = n + 1 := by
    rw [UInt32.toNat_ofNat']
    omega
  have hnone (hs : slot? (UInt32.ofNat (n + 1)) period = none) : l.sample period level =
      { l with phase := .receiving (UInt32.ofNat (n + 1)) (gathered f.byte m) } := by
    simp only [Listener.sample, h.phase, hcount, hs]
  have hsome {slot : UInt32} (hs : slot? (UInt32.ofNat (n + 1)) period = some slot) :
      l.sample period level = l.look (UInt32.ofNat (n + 1)) (gathered f.byte m) slot level := by
    simp only [Listener.sample, h.phase, hcount, hs]
  rcases Nat.lt_or_ge (n + 1) (period.toNat / 2 + period.toNat * (m + 1)) with hlt | hge
  · -- Before the middle of the next data bit there is only the start bit to look at.
    have hzero (hle : n + 1 ≤ period.toNat / 2 + period.toNat * m) : m = 0 := by
      apply Decidable.byContradiction
      intro hne
      have hlower := h.lower (by omega)
      omega
    have hstay : l.sample period level =
        { l with phase := .receiving (UInt32.ofNat (n + 1)) (gathered f.byte m) } := by
      rcases Nat.lt_trichotomy (n + 1) (period.toNat / 2 + period.toNat * m) with
        hearly | hmiddle | hlate
      · obtain rfl := hzero (by omega)
        exact hnone (slot?_early (by omega))
      · obtain rfl := hzero (by omega)
        have hstart : level = false := hlevel 0 hmiddle
        rw [hsome (slot?_middle hperiod (htoNat.trans hmiddle)), hstart, look_start]
      · exact hnone (slot?_between (m := m) (by rwa [htoNat]) (by rwa [htoNat]))
    have hgather : Gathering period.toNat f (n + 1) m
        { l with phase := .receiving (UInt32.ofNat (n + 1)) (gathered f.byte m) } :=
      ⟨rfl, hm, fun hpos => Nat.le_succ_of_le (h.lower hpos), hlt⟩
    rw [hstay]
    exact .inl ⟨by omega, ⟨m, hgather⟩, rfl, rfl⟩
  · have hend : n + 1 = period.toNat / 2 + period.toNat * (m + 1) := by omega
    have hlook := hsome (slot?_middle hperiod (htoNat.trans hend))
    have hslot := hlevel (m + 1) hend
    rcases Nat.lt_or_ge m 8 with hlt | hlast
    · rw [hlook, look_data hlt, hslot, Frame.level_data hlt]
      have hnext : period.toNat * (m + 1) < period.toNat * (m + 1 + 1) :=
        Nat.mul_lt_mul_of_pos_left (by omega) hperiod
      have hnine' : period.toNat * (m + 1) < period.toNat * 9 :=
        Nat.mul_lt_mul_of_pos_left (by omega) hperiod
      exact .inl ⟨by omega, ⟨m + 1, rfl, hlt, fun _ => Nat.le_of_eq hend.symm, by omega⟩, rfl, rfl⟩
    · obtain rfl : m = 8 := by omega
      have hstop : level = f.stop := hslot
      refine .inr ⟨hend, ?_⟩
      rw [hlook, hstop, look_stop, gathered_eight, closed]

end

end BrainfuckBoard.Listener
