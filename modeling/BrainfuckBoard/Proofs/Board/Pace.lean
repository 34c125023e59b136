import BrainfuckBoard.Proofs.Board.Play
import BrainfuckBoard.Proofs.Processor.Stock
import BrainfuckBoard.Proofs.Serial.Spacing

/- The pace of the stock program. Nothing holds the terminal back, so a byte has to find the
   program waiting for it. `Silent D k` bounds the steps until the receiver shows the next
   one from below, `FreeIn D r` the steps until the transmitter is free from above, and
   `InTime` compares the two with the work that is left: a reply is handed over before
   the next byte is due, early enough for the transmitter to be almost through with it by
   then. A step keeps that (`InTime.within`, `InTime.next`), at one step to a tick
   as well as at many. -/
namespace BrainfuckBoard.Board

section
variable {b : Board} {D k r : Nat} {due : List Frame} {sent : Bytes}

/-! ## Until the next byte -/

/-- The receiver shows nothing in the next `k` steps. -/
def Silent (D k : Nat) (b : Board) : Prop :=
  Away D b.chip.baud.lag (b.levels D) k b.chip.receiver.phase

theorem Silent.mono {j : Nat} (h : b.Silent D k) (hj : j ≤ k) : b.Silent D j := Away.mono h hj

theorem Wired.silent_step (h : Wired D b due) (hs : b.Silent D (k + 1)) :
    b.step.chip.receiver.shown = [] ∧ b.step.Silent D k := by
  have haway : Away D b.chip.baud.lag (b.levels D) (k + 1) b.chip.receiver.phase := hs
  obtain ⟨hshown, hnext⟩ := haway.clock rfl h.paced.pos h.paced.lag_le h.paced.tick_iff
  obtain ⟨pad, -, hlevels⟩ := h.step_levels
  rw [Silent, hlevels, h.awake.step_chip]
  simp only [Chip.clock, h.paced.lag_clock]
  exact ⟨hshown, hnext.append pad⟩

/-- When a byte has been shown, the next is a gap and a whole frame away. -/
theorem Wired.silent_of_shown (h : Wired D b due) (hspaced : ∀ f ∈ due, f.stop = true ∧ 1 ≤ f.gap)
    (hshown : b.step.chip.receiver.shown ≠ []) : b.step.Silent D (175 * D) := by
  obtain ⟨pad, -, hlevels⟩ := h.step_levels
  rw [h.awake.step_chip] at hshown
  rw [Silent, hlevels, h.awake.step_chip]
  exact (h.listening.away_of_shown rfl h.paced.tick_iff hspaced hshown).append pad

theorem Wired.silent_zero (h : Wired D b due) : b.Silent D 0 := h.listening.away_zero h.paced.lag_le

/-! ## Until the transmitter is free -/

/-- In `r` steps at the latest. -/
def FreeIn (D r : Nat) (b : Board) : Prop :=
  b.chip.transmitter.busy = true →
    160 * D + 1 ≤ Speaking.elapsed D b.chip.baud.bitLag b.chip.transmitter + r

theorem FreeIn.mono {r' : Nat} (h : b.FreeIn D r) (hr : r ≤ r') : b.FreeIn D r' :=
  fun hb => Nat.le_trans (h hb) (Nat.add_le_add_left hr _)

theorem freeIn_of_free (h : b.chip.transmitter.busy = false) : b.FreeIn D 0 :=
  fun hb => absurd (h.symm.trans hb) Bool.false_ne_true

/-- While the transmitter is busy there are steps left. -/
theorem Speaks.pos_of_busy (h : Speaks D b sent) (hf : b.FreeIn D r)
    (hb : b.chip.transmitter.busy = true) : 0 < r := by
  obtain ⟨unheard, hspeaking, -⟩ := h.speaking
  have hle := hspeaking.elapsed_le h.paced hb
  have hge := hf hb
  omega

theorem Speaks.step_chip (h : Speaks D b sent) : b.step.chip = b.chip.clock b.drivenPins := by
  rw [h.awake.step_chip, h.awake.driven]

theorem Speaks.freeIn_step (h : Speaks D b sent) (hf : b.FreeIn D r)
    (hsent : b.chip.sent? b.drivenPins = none) : b.step.FreeIn D (r - 1) := by
  obtain ⟨unheard, hspeaking, -⟩ := h.speaking
  intro hb'
  rw [h.step_chip] at hb' ⊢
  cases hb : b.chip.transmitter.busy with
  | false =>
    rw [(Chip.clock_rest (hspeaking.rests hb) hsent).1] at hb'
    exact absurd hb' Bool.false_ne_true
  | true =>
    have hpos := h.pos_of_busy hf hb
    have helapsed := hspeaking.elapsed_clock h.paced hb hb'
    have hge := hf hb
    rw [Chip.clock_busy hb]
    simp only [Chip.clock] at helapsed ⊢
    omega

/-- A frame takes ten bits. -/
theorem Speaks.freeIn_frame (h : Speaks D b sent) : b.step.FreeIn D (160 * D) := by
  obtain ⟨unheard, hspeaking, -⟩ := h.speaking
  intro hb'
  rw [h.step_chip] at hb' ⊢
  have hbaud : (b.chip.clock b.drivenPins).baud = b.chip.baud.clock true := by
    cases hb : b.chip.transmitter.busy with
    | true => exact Chip.clock_busy hb
    | false =>
      cases hsent : b.chip.sent? b.drivenPins with
      | none =>
        rw [(Chip.clock_rest (hspeaking.rests hb) hsent).1] at hb'
        exact absurd hb' Bool.false_ne_true
      | some byte => simp [Chip.clock, hsent]
  have hpos := Transmitter.bitLag_pos h.paced
  rw [hbaud, Speaking.elapsed]
  omega

end

/-! ## The work that is left -/

open Image (Task At Next)

/-- The program gets to its wait before the next byte is shown, and the transmitter is
    almost free by then. -/
structure Expects (D k : Nat) (b : Board) : Prop where
  silent : b.Silent D k
  phase : b.cpu.phase = .waitReceive ∨ Core.rank b.cpu.phase ≤ k
  free : ∃ r, b.FreeIn D r ∧ r ≤ k + 42

/-- There are no more than eight steps to an instruction, and enough steps are left for the
    frame of the reply but for 42 of them. -/
structure Replies (D lead k : Nat) (b : Board) : Prop where
  byte : b.chip.receiver.byte? = none
  silent : b.Silent D k
  work : 8 * lead + Core.rank b.cpu.phase + 160 * D ≤ k + 41
  free : ∃ r, b.FreeIn D r ∧ r + 160 * D ≤ k + 41

/-- The program is in time for the next byte. -/
inductive InTime (D : Nat) (b : Board) : Task → Prop
  | waits (k : Nat) (h : Expects D k b) (hbyte : b.chip.receiver.byte? = none) : InTime D b .ask
  | arrived (hsilent : b.Silent D (175 * D)) (hphase : b.cpu.phase = .waitReceive)
      (hfree : b.FreeIn D 42) : InTime D b .ask
  | replies {lead : Nat} {byte : UInt8} (k : Nat) (h : Replies D lead k b) : InTime D b (.reply lead byte)
  | finishes {rest : Bytes} : InTime D b (.finish rest)

section
variable {b : Board} {D k lead : Nat} {due : List Frame} {seen seen' : List Exchange} {s : Word.State}
  {task task' : Task} {byte : UInt8}

theorem byte_of_shown (h : b.chip.receiver.shown = []) : b.chip.receiver.byte? = none := by
  have hreduce := @Receiver.reduce_shown b.chip.receiver
  rw [h] at hreduce
  exact Option.toList_eq_nil_iff.mp hreduce.symm

/-- On the way to a reply the next byte is some steps off. -/
theorem Replies.silent_step (h : Replies D lead k b) (hw : Wired D b due) :
    ∃ j, k = j + 1 ∧ b.step.chip.receiver.byte? = none ∧ b.step.Silent D j := by
  have hD := hw.paced.pos
  have hwork := h.work
  obtain ⟨j, rfl⟩ : ∃ j, k = j + 1 := ⟨k - 1, by omega⟩
  obtain ⟨hshown, hsilent⟩ := hw.silent_step h.silent
  exact ⟨j, rfl, byte_of_shown hshown, hsilent⟩

section
variable (hplays : Plays D Image.stock b seen s due) (hp : b.chip.core.Proceeds b.signals)
  (hsent : b.chip.sent? b.drivenPins = none)
include hplays hp hsent

/-- A step within the instruction that takes a byte. -/
theorem Expects.within (h : Expects D k b) (hat : At .ask s) (hspaced : ∀ f ∈ due, f.stop = true ∧ 1 ≤ f.gap) :
    InTime D b.step .ask := by
  obtain ⟨r, hfree, hr⟩ := h.free
  have hfree' := hplays.speaks.freeIn_step hfree hsent
  have hphase : b.step.cpu.phase = .waitReceive ∨ Core.rank b.step.cpu.phase < k := by
    obtain ⟨next, hnext, -⟩ := hat.ask
    rw [Board.cpu, step_core hplays.wired.awake]
    rcases hplays.tracks.proceeds hp with hlt | ⟨-, -, _, _, hs⟩ | ⟨hstays, -⟩ | hs
    · right
      rcases h.phase with hwait | hle
      · have hwait' : b.chip.core.cpu.phase = .waitReceive := hwait
        rw [hwait'] at hlt
        exact absurd hlt (Nat.not_lt_zero _)
      · exact Nat.lt_of_lt_of_le hlt hle
    · rw [hnext] at hs
      cases hs
    · exact .inl hstays
    · rw [hnext] at hs
      cases hs
  cases k with
  | zero =>
    have hwait : b.step.cpu.phase = .waitReceive := hphase.resolve_right (Nat.not_lt_zero _)
    by_cases hshown : b.step.chip.receiver.shown = []
    · obtain ⟨_, hnext, -⟩ := hplays.wired.step
      exact .waits 0 ⟨hnext.silent_zero, .inl hwait, r - 1, hfree', by omega⟩ (byte_of_shown hshown)
    · exact .arrived (hplays.wired.silent_of_shown hspaced hshown) hwait (hfree'.mono (by omega))
  | succ k =>
    obtain ⟨hshown, hsilent⟩ := hplays.wired.silent_step h.silent
    exact .waits k ⟨hsilent, hphase.imp_right Nat.le_of_lt_succ, r - 1, hfree', by omega⟩
      (byte_of_shown hshown)

/-- A step within an instruction on the way to a reply, or while it waits to be sent. -/
theorem Replies.within (h : Replies D lead k b) (hat : At (.reply lead byte) s) :
    ∃ k', Replies D lead k' b.step := by
  have hwork := h.work
  obtain ⟨r, hfree, hr⟩ := h.free
  have hfree' := hplays.speaks.freeIn_step hfree hsent
  obtain ⟨k, rfl, hbyte, hsilent⟩ := h.silent_step hplays.wired
  have hphase : 8 * lead + Core.rank b.step.cpu.phase + 160 * D ≤ k + 41 := by
    rw [Board.cpu, step_core hplays.wired.awake]
    rcases hplays.tracks.proceeds hp with hlt | ⟨hstays, hbusy, _, _, hs⟩ | ⟨-, -, _, hs⟩ | hs
    · have hlt' : Core.rank (b.chip.core.clock b.signals).cpu.phase < Core.rank b.cpu.phase := hlt
      omega
    · -- The reply waits for the frame before it to end.
      have hpos : 0 < r := hplays.speaks.pos_of_busy hfree hbusy
      obtain rfl : lead = 0 := by
        cases lead with
        | zero => rfl
        | succ lead =>
          obtain ⟨u, hu, -⟩ := hat.reply_succ
          rw [hs] at hu
          cases hu
      rw [hstays]
      simp only [Core.rank]
      omega
    · obtain ⟨u, hu | hu⟩ := hat.reply <;> rw [hs] at hu <;> cases hu
    · obtain ⟨u, hu | hu⟩ := hat.reply <;> rw [hs] at hu <;> cases hu
  exact ⟨k, hbyte, hsilent, hphase, r - 1, hfree', by omega⟩

/-- A step that stays within an instruction. -/
theorem InTime.within (h : InTime D b task) (hat : At task s)
    (hspaced : ∀ f ∈ due, f.stop = true ∧ 1 ≤ f.gap) : InTime D b.step task := by
  cases h with
  | waits k h => exact h.within hplays hp hsent hat hspaced
  | arrived hsilent hphase hfree =>
    have hexpects : Expects D (175 * D) b := ⟨hsilent, .inl hphase, 42, hfree, by omega⟩
    exact hexpects.within hplays hp hsent hat hspaced
  | replies k h =>
    obtain ⟨k', h'⟩ := h.within hplays hp hsent hat
    exact .replies k' h'
  | finishes => exact .finishes

end

/-- A step that ends an instruction. -/
theorem InTime.next (h : InTime D b task) (hplays : Plays D Image.stock b seen s due)
    (hn : Next task seen' task') (hsent : (b.chip.sent? b.drivenPins).toList = sentBytes seen')
    (hreceived : receivedBytes seen' = b.chip.receiver.byte?.toList) : InTime D b.step task' := by
  have hD := hplays.wired.paced.pos
  have hrank := Core.rank_le b.step.cpu.phase
  cases hn with
  | take byte =>
    have hnone : b.chip.sent? b.drivenPins = none := Option.toList_eq_nil_iff.mp hsent
    cases h with
    | waits k h hbyte =>
      rw [hbyte] at hreceived
      cases hreceived
    | arrived hsilent hphase hfree =>
      have hsilent' : b.Silent D (175 * D - 1 + 1) := hsilent.mono (by omega)
      obtain ⟨hshown, hnext⟩ := hplays.wired.silent_step hsilent'
      have hfree' := hplays.speaks.freeIn_step hfree hnone
      -- A zero ends the stream; any other byte is to be answered while the line is silent.
      unfold Task.taken
      split
      · exact .finishes
      · exact .replies _ ⟨byte_of_shown hshown, hnext, by omega, 41, hfree', by omega⟩
  | work lead byte =>
    have hnone : b.chip.sent? b.drivenPins = none := Option.toList_eq_nil_iff.mp hsent
    cases h with
    | replies k h =>
      have hwork := h.work
      obtain ⟨r, hfree, hr⟩ := h.free
      obtain ⟨k, rfl, hbyte, hsilent⟩ := h.silent_step hplays.wired
      have hfree' := hplays.speaks.freeIn_step hfree hnone
      exact .replies k ⟨hbyte, hsilent, by omega, r - 1, hfree', by omega⟩
  | reply byte =>
    cases h with
    | replies k h =>
      have hwork := h.work
      obtain ⟨k, rfl, hbyte, hsilent⟩ := h.silent_step hplays.wired
      have hfree := hplays.speaks.freeIn_frame
      exact .waits k ⟨hsilent, .inr (by omega), _, hfree, by omega⟩ hbyte
  | prepare | close => exact .finishes

end

end BrainfuckBoard.Board
