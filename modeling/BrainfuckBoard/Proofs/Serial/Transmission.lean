import BrainfuckBoard.Circuit.Transmitter
import BrainfuckBoard.Proofs.Serial.Decoding
import BrainfuckBoard.Proofs.Serial.Oversampling

/- The transmitter and the listening half of the terminal. `Speaking` says where both
   are in a frame, and which byte has been handed over and not been heard yet; there is
   one at most. A step keeps it (`Speaking.clock`), so the bytes that are heard are the
   bytes that were handed over, and the transmitter is free in the end. -/
namespace BrainfuckBoard

/-! ## A frame of the transmitter -/

namespace Transmitter

/-- The bit that is on the line. -/
def Phase.slot : Phase → Nat
  | .idle => 10
  | .start _ => 0
  | .bits _ i => i + 1
  | .stop => 9

/-- The frame that a byte is sent in. -/
def frame (byte : UInt8) : Frame := { byte, gap := 0 }

/-- The transmitter is in the frame of a byte. -/
structure Sends (byte : UInt8) (t : Transmitter) : Prop where
  busy : t.busy = true
  phase : match t.phase with
    | .idle => False
    | .start b => b = byte
    | .bits b i => b = byte ∧ i ≤ 7
    | .stop => True
  line : t.line = (frame byte).level t.phase.slot

section
variable {t : Transmitter} {byte : UInt8} {offered : Option UInt8} {c : BaudClock} {D : Nat}

theorem Sends.ne_idle (h : t.Sends byte) : t.phase ≠ .idle := by
  intro hp
  have hphase := h.phase
  rw [hp] at hphase
  exact hphase

/-- Nothing is taken while a byte is being sent. -/
theorem clock_busy {ticked : Bool} (h : t.phase ≠ .idle) :
    t.clock offered ticked = if ticked then t.tick else t := if_neg h

theorem Sends.slot_le (h : t.Sends byte) : t.phase.slot ≤ 9 := by
  have hphase := h.phase
  cases hp : t.phase with
  | idle => exact absurd hp h.ne_idle
  | start b => exact Nat.zero_le _
  | bits b i =>
    rw [hp] at hphase
    simp only [Phase.slot]
    omega
  | stop => exact Nat.le_refl _

theorem Sends.tick (h : t.Sends byte) :
    (t.tick.Sends byte ∧ t.tick.phase.slot = t.phase.slot + 1) ∨
      (t.phase.slot = 9 ∧ t.tick = { line := true, busy := false, phase := .idle }) := by
  have hphase := h.phase
  cases hp : t.phase with
  | idle => exact absurd hp h.ne_idle
  | start b =>
    rw [hp] at hphase
    obtain rfl : b = byte := hphase
    have htick : t.tick = { t with line := byteBit b 0, phase := .bits b 0 } := by
      simp [Transmitter.tick, hp]
    have hlevel : (frame b).level 1 = byteBit b 0 := Frame.level_data (i := 0) (by decide)
    rw [htick]
    exact .inl ⟨⟨h.busy, ⟨rfl, by decide⟩, hlevel.symm⟩, rfl⟩
  | bits b i =>
    rw [hp] at hphase
    obtain ⟨rfl, hi⟩ := hphase
    left
    by_cases hlast : i = 7
    · have htick : t.tick = { t with line := true, phase := .stop } := by
        simp [Transmitter.tick, hp, hlast]
      rw [htick, hlast]
      exact ⟨⟨h.busy, trivial, rfl⟩, rfl⟩
    · have htick : t.tick = { t with line := byteBit b (i + 1), phase := .bits b (i + 1) } := by
        simp [Transmitter.tick, hp, hlast]
      have hlevel : (frame b).level (i + 1 + 1) = byteBit b (i + 1) := Frame.level_data (by omega)
      rw [htick]
      exact ⟨⟨h.busy, ⟨rfl, by omega⟩, hlevel.symm⟩, rfl⟩
  | stop =>
    have hline : t.line = true := by rw [h.line, hp]; rfl
    have htick : t.tick = { t with busy := false, phase := .idle } := by simp [Transmitter.tick, hp]
    rw [htick, hline]
    exact .inr ⟨rfl, rfl⟩

/-- A step in a frame; every bit takes sixteen times `D` of them. -/
theorem Sends.clock (h : t.Sends byte) (hc : c.Paced D) (offered : Option UInt8) :
    ((t.clock offered c.bitTick).Sends byte ∧
      (t.clock offered c.bitTick).phase.slot * (16 * D) + (c.clock true).bitLag =
        t.phase.slot * (16 * D) + c.bitLag + 1) ∨
    (t.phase.slot * (16 * D) + c.bitLag = 160 * D ∧ (c.clock true).bitLag = 1 ∧
      t.clock offered c.bitTick = { line := true, busy := false, phase := .idle }) := by
  rw [clock_busy h.ne_idle, hc.bitLag_clock]
  cases htick : c.bitTick with
  | false => exact .inl ⟨h, rfl⟩
  | true =>
    have hlag := hc.bitTick_iff.mp htick
    rw [if_pos rfl, if_pos rfl]
    rcases h.tick with ⟨hnext, hslot⟩ | ⟨hslot, hidle⟩
    · refine .inl ⟨hnext, ?_⟩
      rw [hslot, hlag, Nat.succ_mul]
    · refine .inr ⟨?_, rfl, hidle⟩
      rw [hslot, hlag]
      omega

theorem bitLag_pos (hc : c.Paced D) : 0 < (c.clock true).bitLag := by
  rw [hc.bitLag_clock]
  split <;> omega

end

end Transmitter

/-! ## The transmitter and the listener -/

open Listener (Gathering)

/-- Where the two are, `lag` steps after the last bit tick, and what has been handed
    over and is yet to be heard. The line fell `n` steps ago; the bit clock is one step
    ahead of that, or two if it had not stopped after the frame before. -/
inductive Speaking (D lag : Nat) (t : Transmitter) (l : Listener) : List UInt8 → Prop
  | silent (hphase : t.phase = .idle) (hbusy : t.busy = false) (hline : t.line = true) (hlag : lag ≤ 1)
      (hl : l.phase = .idle) : Speaking D lag t l []
  | sending (byte : UInt8) (n m δ : Nat) (ht : t.Sends byte) (hδ : δ ≤ 1)
      (hn : n + 1 + δ = t.phase.slot * (16 * D) + lag)
      (hl : Gathering (16 * D) (Transmitter.frame byte) n m l) (hlt : n < 152 * D) :
      Speaking D lag t l [byte]
  | heard (byte : UInt8) (n δ : Nat) (ht : t.Sends byte) (hδ : δ ≤ 1)
      (hn : n + 1 + δ = t.phase.slot * (16 * D) + lag) (hl : l.phase = .idle) (hge : 152 * D ≤ n) :
      Speaking D lag t l []

namespace Speaking

section
variable {D : Nat} {t : Transmitter} {l : Listener} {c : BaudClock} {period : UInt32}
  {unheard : List UInt8} {sent : Option UInt8}

/-- A bit is on the line when it is looked at. -/
theorem slot_eq {slot s lag r period : Nat} (h : slot * period + lag = s * period + r) (hlag : 0 < lag)
    (hlag' : lag ≤ period) (hr : 0 < r) (hr' : r ≤ period) : slot = s := by
  rcases Nat.lt_trichotomy slot s with hlt | heq | hgt
  · have hle := Nat.mul_le_mul_right period hlt
    rw [Nat.succ_mul] at hle
    omega
  · exact heq
  · have hle := Nat.mul_le_mul_right period hgt
    rw [Nat.succ_mul] at hle
    omega

theorem sample_idle (hl : l.phase = .idle) : l.sample period true = l := by
  simp [Listener.sample, hl]

/-- What a step makes of the bytes that have been handed over: `before` it, and by it. -/
def Hears (D lag : Nat) (t : Transmitter) (l l' : Listener) (handed : List UInt8) : Prop :=
  ∃ unheard, Speaking D lag t l' unheard ∧ l'.received.toList ++ unheard = l.received.toList ++ handed ∧
    l'.framingErrors = l.framingErrors

theorem clock_silent (hc : c.Paced D) (hperiod : period.toNat = 16 * D) (hphase : t.phase = .idle)
    (hbusy : t.busy = false) (hline : t.line = true) (hlag : c.bitLag ≤ 1) (hl : l.phase = .idle) :
    Hears D (c.clock (t.busy || sent.isSome)).bitLag (t.clock sent c.bitTick) l
      (l.sample period (t.clock sent c.bitTick).line) sent.toList := by
  have hD := hc.pos
  cases sent with
  | none =>
    have hsame : t.clock none c.bitTick = t := by simp [Transmitter.clock, hphase]
    rw [hsame, hline, hbusy, sample_idle hl]
    exact ⟨[], silent hphase hbusy hline (Nat.zero_le _) hl, rfl, rfl⟩
  | some byte =>
    have hstart : t.clock (some byte) c.bitTick =
        { line := false, busy := true, phase := .start byte } := by
      simp [Transmitter.clock, hphase]
    -- The bit clock has stopped, or is one step past a tick.
    have hnotick : c.bitTick = false := by
      apply Bool.eq_false_iff.mpr
      intro htick
      have hdue := hc.bitTick_iff.mp htick
      omega
    obtain ⟨hgather, hreceived, herrors⟩ := Listener.gathering_start (f := Transmitter.frame byte) hl
      (show 0 < period.toNat by omega)
    rw [hperiod] at hgather
    rw [hstart, Option.isSome_some, Bool.or_true]
    refine ⟨[byte], sending byte 0 0 c.bitLag ⟨rfl, rfl, rfl⟩ hlag ?_ hgather (by omega), ?_, herrors⟩
    · rw [hc.bitLag_clock, hnotick]
      simp only [Transmitter.Phase.slot, Bool.false_eq_true, if_false]
      omega
    · rw [hreceived]
      rfl

theorem clock_sending (hc : c.Paced D) (hperiod : period.toNat = 16 * D) (hbound : 152 * D < 2 ^ 32)
    {byte : UInt8} {n m δ : Nat} (ht : t.Sends byte) (hδ : δ ≤ 1)
    (hn : n + 1 + δ = t.phase.slot * (16 * D) + c.bitLag)
    (hl : Gathering (16 * D) (Transmitter.frame byte) n m l) (hlt : n < 152 * D) :
    Hears D (c.clock true).bitLag (t.clock sent c.bitTick) l
      (l.sample period (t.clock sent c.bitTick).line) [byte] := by
  have hD := hc.pos
  have hlag := Transmitter.bitLag_pos hc
  have hlag' := (hc.clock true).bitLag_le
  rcases ht.clock hc sent with ⟨hnext, hcount⟩ | ⟨hend, -⟩
  · -- The listener looks in the middle of a bit, and there both are in the same one.
    have hlevel : ∀ s, n + 1 = period.toNat / 2 + period.toNat * s →
        (t.clock sent c.bitTick).line = (Transmitter.frame byte).level s := by
      intro s hs
      rw [hperiod, Nat.mul_comm (16 * D)] at hs
      have hslot : (t.clock sent c.bitTick).phase.slot = s :=
        slot_eq (r := 8 * D + 1 + δ) (by omega) hlag hlag' (by omega) (by omega)
      rw [hnext.line, hslot]
    rw [← hperiod] at hl
    rcases hl.sample (by omega) (by omega) hlevel with
      ⟨hin, ⟨m', hgather⟩, hreceived, herrors⟩ | ⟨hlast, hclosed⟩
    · rw [hperiod] at hgather hin
      refine ⟨[byte], sending byte (n + 1) m' δ hnext hδ (by omega) hgather (by omega), ?_, herrors⟩
      rw [hreceived]
    · rw [hperiod] at hlast
      rw [hclosed]
      refine ⟨[], heard byte (n + 1) δ hnext hδ (by omega) rfl (by omega), ?_, rfl⟩
      simp [Listener.closed, Transmitter.frame]
  · -- The frame is not over, since the byte is heard before the stop bit ends.
    omega

theorem clock_heard (hc : c.Paced D) {byte : UInt8} {n δ : Nat} (ht : t.Sends byte) (hδ : δ ≤ 1)
    (hn : n + 1 + δ = t.phase.slot * (16 * D) + c.bitLag) (hl : l.phase = .idle) (hge : 152 * D ≤ n) :
    Hears D (c.clock true).bitLag (t.clock sent c.bitTick) l
      (l.sample period (t.clock sent c.bitTick).line) [] := by
  have hlag' := (hc.clock true).bitLag_le
  rcases ht.clock hc sent with ⟨hnext, hcount⟩ | ⟨-, hone, hidle⟩
  · have hslot : 9 ≤ (t.clock sent c.bitTick).phase.slot := by
      apply Decidable.byContradiction
      intro hlt
      have hle := Nat.mul_le_mul_right (16 * D) (show (t.clock sent c.bitTick).phase.slot ≤ 8 by omega)
      omega
    have hline : (t.clock sent c.bitTick).line = true := by
      rw [hnext.line]
      rcases Nat.eq_or_lt_of_le hslot with heq | hlt
      · rw [← heq]
        rfl
      · exact Frame.level_gap hlt
    rw [hline, sample_idle hl]
    exact ⟨[], heard byte (n + 1) δ hnext hδ (by omega) hl (by omega), rfl, rfl⟩
  · rw [hidle, sample_idle hl]
    exact ⟨[], silent rfl rfl rfl (Nat.le_of_eq hone) hl, rfl, rfl⟩

theorem nothing_of_sends {byte : UInt8} (ht : t.Sends byte) (hsent : sent ≠ none → t.busy = false) :
    sent = none := by
  apply Decidable.byContradiction
  intro hs
  rw [ht.busy] at hsent
  exact absurd (hsent hs) (by decide)

/-- A step in which a byte is handed over only if the transmitter is free. What has been
    handed over is heard, or is the one byte that is on its way. -/
theorem clock (h : Speaking D c.bitLag t l unheard) (hc : c.Paced D) (hperiod : period.toNat = 16 * D)
    (hbound : 152 * D < 2 ^ 32) (hsent : sent ≠ none → t.busy = false) :
    Hears D (c.clock (t.busy || sent.isSome)).bitLag (t.clock sent c.bitTick) l
      (l.sample period (t.clock sent c.bitTick).line) (unheard ++ sent.toList) := by
  cases h with
  | silent hphase hbusy hline hlag hl => exact clock_silent hc hperiod hphase hbusy hline hlag hl
  | sending byte n m δ ht hδ hn hl hlt =>
    obtain rfl := nothing_of_sends ht hsent
    rw [ht.busy]
    exact clock_sending hc hperiod hbound ht hδ hn hl hlt
  | heard byte n δ ht hδ hn hl hge =>
    obtain rfl := nothing_of_sends ht hsent
    rw [ht.busy]
    exact clock_heard hc ht hδ hn hl hge

theorem silent_of_free (h : Speaking D c.bitLag t l unheard) (hb : t.busy = false) : unheard = [] := by
  cases h with
  | silent => rfl
  | sending byte n m δ ht => exact absurd (hb.symm.trans ht.busy) (by decide)
  | heard => rfl

theorem rests (h : Speaking D c.bitLag t l unheard) (hb : t.busy = false) : t = {} := by
  cases h with
  | silent hphase hbusy hline =>
    obtain ⟨line, busy, phase⟩ := t
    obtain rfl : line = true := hline
    obtain rfl : busy = false := hbusy
    obtain rfl : phase = .idle := hphase
    rfl
  | sending byte n m δ ht => exact absurd (hb.symm.trans ht.busy) (by decide)
  | heard byte n δ ht => exact absurd (hb.symm.trans ht.busy) (by decide)

theorem length_le (h : Speaking D c.bitLag t l unheard) : unheard.length ≤ 1 := by
  cases h with
  | sending => exact Nat.le_refl 1
  | silent | heard => exact Nat.zero_le 1

/-! ## The end of a frame -/

/-- Steps since the line fell, and one or two more. -/
def elapsed (D lag : Nat) (t : Transmitter) : Nat := t.phase.slot * (16 * D) + lag

theorem sends_of_busy (h : Speaking D c.bitLag t l unheard) (hb : t.busy = true) : ∃ byte, t.Sends byte := by
  cases h with
  | silent _ hbusy => exact absurd (hb.symm.trans hbusy) (by decide)
  | sending byte n m δ ht => exact ⟨byte, ht⟩
  | heard byte n δ ht => exact ⟨byte, ht⟩

theorem elapsed_pos (h : Speaking D c.bitLag t l unheard) (hb : t.busy = true) :
    0 < elapsed D c.bitLag t := by
  cases h with
  | silent _ hbusy => exact absurd (hb.symm.trans hbusy) (by decide)
  | sending _ n _ _ _ _ hn =>
    rw [elapsed, ← hn]
    omega
  | heard _ n _ _ _ hn =>
    rw [elapsed, ← hn]
    omega

theorem elapsed_le (h : Speaking D c.bitLag t l unheard) (hc : c.Paced D) (hb : t.busy = true) :
    elapsed D c.bitLag t ≤ 160 * D := by
  obtain ⟨byte, ht⟩ := h.sends_of_busy hb
  have hlag := hc.bitLag_le
  have hslot := Nat.mul_le_mul_right (16 * D) ht.slot_le
  unfold elapsed
  omega

theorem elapsed_clock (h : Speaking D c.bitLag t l unheard) (hc : c.Paced D) (hb : t.busy = true)
    (hb' : (t.clock sent c.bitTick).busy = true) :
    elapsed D (c.clock true).bitLag (t.clock sent c.bitTick) = elapsed D c.bitLag t + 1 := by
  obtain ⟨byte, ht⟩ := h.sends_of_busy hb
  rcases ht.clock hc sent with ⟨-, hcount⟩ | ⟨-, -, hidle⟩
  · exact hcount
  · rw [hidle] at hb'
    exact absurd hb' Bool.false_ne_true

end

end Speaking

end BrainfuckBoard
