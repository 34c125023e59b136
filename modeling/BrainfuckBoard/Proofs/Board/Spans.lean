import BrainfuckBoard.Proofs.Board.Departures

/- How long the bits of the transmitter last. On every board that there is, the transmitter
   is at rest or in a frame (`Reachable.regular`), and in a frame every bit but the first
   has its whole period. The first has it if the transmitter was free in the step before.
   If a frame was still being sent then, the bit clock has not stopped in between: it is one
   step ahead when the next frame begins, the start bit is one step short, and the rest of
   the frame comes one step early (`spans_of_sent`, `short_start_bit`). -/
namespace BrainfuckBoard

/-! ## The bits of a frame -/

namespace Transmitter

/-- From the step on in which a byte is handed over, the bits of its frame last `period`
    steps each, but for the first, which is `early` steps shorter. -/
structure Spans (period early : Nat) (byte : UInt8) (wave : Nat → Transmitter) : Prop where
  start : ∀ k, k + early < period → (wave k).line = false
  data : ∀ i, i < 8 → ∀ k, (i + 1) * period ≤ k + early → k + early < (i + 2) * period →
    (wave k).line = byteBit byte i
  stop : ∀ k, 9 * period ≤ k + early → k + early < 10 * period → (wave k).line = true
  busy : ∀ k, k + early < 10 * period → (wave k).busy = true
  free : ∀ k, k + early = 10 * period → (wave k).busy = false

section
variable {period early : Nat} {byte : UInt8} {wave : Nat → Transmitter}

theorem spans_of_slots (hperiod : 0 < period)
    (hline : ∀ k, k + early < 10 * period → (wave k).line = (frame byte).level ((k + early) / period))
    (hbusy : ∀ k, k + early < 10 * period → (wave k).busy = true)
    (hfree : ∀ k, k + early = 10 * period → (wave k).busy = false) : Spans period early byte wave where
  start := by
    intro k hk
    rw [hline k (by omega), Nat.div_eq_of_lt hk]
    rfl
  data := by
    intro i hi k hlow hhigh
    have hlast := Nat.mul_le_mul_right period (show i + 2 ≤ 10 by omega)
    rw [hline k (by omega), Nat.div_eq_of_lt_le hlow hhigh]
    exact Frame.level_data hi
  stop := by
    intro k hlow hhigh
    rw [hline k hhigh, Nat.div_eq_of_lt_le hlow hhigh]
    rfl
  busy := hbusy
  free := hfree

end

end Transmitter

open Transmitter (Spans)

theorem ResetSynchronizer.released_of_clock {r : ResetSynchronizer} {pin : Bool}
    (h : (r.clock pin).asserted = false) : pin = true ∧ r.clock pin = .released := by
  cases pin with
  | false => exact absurd h.symm Bool.false_ne_true
  | true =>
    -- One step is not enough.
    obtain ⟨n, hn⟩ : ∃ n, r.highSteps = n + 1 := by
      cases hr : r.highSteps with
      | zero => simp [clock, hr, stages] at h
      | succ n => exact ⟨n, rfl⟩
    have hsteps : min stages (r.highSteps + 1) = stages := by
      rw [hn]
      exact Nat.min_eq_left (Nat.le_add_left 2 n)
    simp only [clock, if_true, hsteps]
    exact ⟨trivial, rfl⟩

/-- Sixteen ticks of the one counter are a bit of the other. -/
structure BaudClock.Divided (D : Nat) (c : BaudClock) : Prop where
  pos : 1 ≤ D
  oversample : c.oversampleDivisor.toNat = D
  bit : c.bitDivisor.toNat = 16 * D

/-! ## At rest or in a frame -/

namespace Chip

/-- The transmitter is in a frame, or at rest with a bit clock that has stopped or is just
    past a tick. -/
structure Regular (D : Nat) (c : Chip) : Prop where
  paced : c.baud.Paced D
  transmits : (c.transmitter = {} ∧ c.baud.bitLag ≤ 1) ∨ ∃ byte, c.transmitter.Sends byte

section
variable {c : Chip} {D : Nat} {pins : Pins} {byte : UInt8}

theorem Regular.rests (h : c.Regular D) (hb : c.transmitter.busy = false) :
    c.transmitter = {} ∧ c.baud.bitLag ≤ 1 := by
  rcases h.transmits with hrest | ⟨byte, hsends⟩
  · exact hrest
  · exact absurd (hb.symm.trans hsends.busy) Bool.false_ne_true

/-- While the transmitter is at rest the bit clock does not tick. -/
theorem Regular.bitTick (h : c.Regular D) (hb : c.transmitter.busy = false) : c.baud.bitTick = false := by
  apply Bool.eq_false_iff.mpr
  intro htick
  have hlag := h.paced.bitTick_iff.mp htick
  have hle := (h.rests hb).2
  have hD := h.paced.pos
  omega

theorem Regular.bitCount (h : c.Regular D) (hb : c.transmitter.busy = false) :
    c.baud.bitCount.toNat = c.baud.bitLag := by
  simp only [BaudClock.bitLag, BaudClock.counted, h.bitTick hb, Bool.false_eq_true, if_false]

/-- The step in which a frame begins. -/
theorem clock_start (hrest : c.transmitter = {}) (hsent : c.sent? pins = some byte) :
    (c.clock pins).transmitter = { line := false, busy := true, phase := .start byte } ∧
      (c.clock pins).baud = c.baud.clock true := by
  simp [Chip.clock, hsent, hrest, Transmitter.clock]

theorem Regular.clock (h : c.Regular D) (pins : Pins) : (c.clock pins).Regular D := by
  refine ⟨h.paced.clock _, ?_⟩
  rcases h.transmits with ⟨hrest, -⟩ | ⟨byte, hsends⟩
  · cases hsent : c.sent? pins with
    | none =>
      obtain ⟨hidle, hlag⟩ := clock_rest hrest hsent
      exact .inl ⟨hidle, by omega⟩
    | some byte =>
      rw [(clock_start hrest hsent).1]
      exact .inr ⟨byte, rfl, rfl, rfl⟩
  · rw [clock_busy hsends.busy]
    rcases hsends.clock h.paced (c.sent? pins) with ⟨hnext, -⟩ | ⟨-, hone, hidle⟩
    · exact .inr ⟨byte, hnext⟩
    · exact .inl ⟨hidle, Nat.le_of_eq hone⟩

/-- The bit clock is one step ahead if a frame has ended in this step. -/
theorem Regular.clock_bitLag (h : c.Regular D) (hb : (c.clock pins).transmitter.busy = false) :
    (c.clock pins).baud.bitLag = if c.transmitter.busy then 1 else 0 := by
  rcases h.transmits with ⟨hrest, -⟩ | ⟨byte, hsends⟩
  · cases hsent : c.sent? pins with
    | none => rw [(clock_rest hrest hsent).2, hrest]; rfl
    | some byte =>
      rw [(clock_start hrest hsent).1] at hb
      exact absurd hb Bool.true_eq_false.mp
  · rw [clock_busy hsends.busy, hsends.busy, if_pos rfl]
    rcases hsends.clock h.paced (c.sent? pins) with ⟨hnext, -⟩ | ⟨-, hone, -⟩
    · exact absurd (hb.symm.trans hnext.busy) Bool.false_ne_true
    · exact hone

theorem regular_reset (h : c.baud.Divided D) : c.reset.Regular D where
  paced := BaudClock.paced_reset h.oversample h.bit h.pos
  transmits := .inl ⟨rfl, Nat.zero_le _⟩

end

end Chip

namespace Board

section
variable {a b b' : Board} {op : Operation} {ops : List Operation} {before : Nat → List Operation}
  {D early k : Nat} {byte : UInt8}

theorem Operation.cases_of_stepless (h : op.stepless = true) : op.between = true ∨ op = .reset ∨
    (∃ config, op = .configure config) ∨ op = .setPin .reset false := by
  cases op with
  | setPin pin level => cases pin <;> cases level <;> simp [between]
  | _ => simp_all [between, stepless]

/-- Whatever has been done to the board. The rates change in a reset only. -/
theorem Reachable.regular (h : b.Reachable) : ∀ D, b.chip.baud.Divided D → b.chip.Regular D := by
  apply h.keeps
  · intro config D hD
    exact Chip.regular_reset hD
  · intro b hb D hD
    have hchip : b.step.chip = b.nextChip (b.resetLine.clock b.pins.reset).asserted := rfl
    rw [hchip, nextChip] at hD ⊢
    split at hD
    · next hreset =>
      rw [if_pos hreset]
      exact Chip.regular_reset ⟨hD.pos, hD.oversample, hD.bit⟩
    · next hreset =>
      rw [if_neg hreset]
      exact (hb D ⟨hD.pos, hD.oversample, hD.bit⟩).clock _
  · intro b op hop hb D hD
    rcases Operation.cases_of_stepless hop with hbetween | rfl | ⟨config, rfl⟩ | rfl
    · have hkept : Kept b (b.perform op).2 := op.kept hbetween
      rw [hkept.baud] at hD
      obtain ⟨hpaced, htransmits⟩ := hb D hD
      exact ⟨by rwa [hkept.baud], by rwa [hkept.baud, hkept.transmitter]⟩
    · exact Chip.regular_reset ⟨hD.pos, hD.oversample, hD.bit⟩
    · exact Chip.regular_reset hD
    · exact hb D ⟨hD.pos, hD.oversample, hD.bit⟩

/-! ## A frame, step by step -/

/-- The step is spent in reset. -/
def inReset (b : Board) : Bool := (b.resetLine.clock b.pins.reset).asserted

theorem step_chip_of_run (h : b.inReset = false) : b.step.chip = b.chip.clock b.drivenPins := by
  have hchip : b.step.chip = b.nextChip b.inReset := rfl
  rw [hchip, h]
  rfl

/-- Out of reset the board stays out of it. -/
theorem running_of_run (h : b.inReset = false) : b.step.Running := by
  obtain ⟨hpin, hline⟩ := ResetSynchronizer.released_of_clock h
  exact ⟨driven_reset.trans hpin, hline⟩

/-- `k` steps after the one in which the byte was handed over. -/
structure InFrame (D early : Nat) (byte : UInt8) (k : Nat) (b : Board) : Prop where
  running : b.Running
  paced : b.chip.baud.Paced D
  sends : b.chip.transmitter.Sends byte
  lag_pos : 0 < b.chip.baud.bitLag
  count : b.chip.transmitter.phase.slot * (16 * D) + b.chip.baud.bitLag = k + 1 + early

theorem InFrame.kept (h : InFrame D early byte k b) (hk : Kept b b') : InFrame D early byte k b' where
  running := hk.running h.running
  paced := by rw [hk.baud]; exact h.paced
  sends := by rw [hk.transmitter]; exact h.sends
  lag_pos := by rw [hk.baud]; exact h.lag_pos
  count := by rw [hk.baud, hk.transmitter]; exact h.count

theorem InFrame.step (h : InFrame D early byte k b) : InFrame D early byte (k + 1) b.step ∨
    (k + 1 + early = 160 * D ∧ b.step.chip.transmitter.busy = false) := by
  have hchip := h.running.step_chip
  have hbaud : b.step.chip.baud = b.chip.baud.clock true := by
    rw [hchip]
    exact Chip.clock_busy h.sends.busy
  rcases h.sends.clock h.paced (b.chip.sent? b.drivenPins) with ⟨hnext, hcount⟩ | ⟨hend, -, hidle⟩
  · left
    refine ⟨h.running.step, ?_, ?_, ?_, ?_⟩
    · rw [hbaud]
      exact h.paced.clock true
    · rw [hchip]
      exact hnext
    · rw [hbaud]
      exact Transmitter.bitLag_pos h.paced
    · rw [hbaud, hchip]
      exact hcount.trans (by rw [h.count]; omega)
  · right
    refine ⟨h.count.symm.trans hend, ?_⟩
    rw [hchip]
    exact congrArg Transmitter.busy hidle

/-- The bit that is on the line. -/
theorem InFrame.slot (h : InFrame D early byte k b) :
    (k + early) / (16 * D) = b.chip.transmitter.phase.slot := by
  have hpos := h.lag_pos
  have hle := h.paced.bitLag_le
  have hcount := h.count
  apply Nat.div_eq_of_lt_le
  · omega
  · rw [Nat.succ_mul]
    omega

theorem inFrame_course (h : InFrame D early byte 0 b) (hops : ∀ k, ∀ op ∈ before k, op.between = true) :
    ∀ k, k + early < 160 * D → InFrame D early byte k (b.course before k)
  | 0, _ => h
  | k + 1, hk => by
    have hopening : InFrame D early byte k (b.opening before k) :=
      (inFrame_course h hops k (by omega)).kept (kept_after (hops k))
    rcases hopening.step with hnext | ⟨hend, -⟩
    · exact hnext
    · omega

theorem free_course (h : InFrame D early byte 0 b) (hops : ∀ k, ∀ op ∈ before k, op.between = true)
    (hearly : early ≤ 1) (hk : k + early = 160 * D) :
    (b.course before k).chip.transmitter.busy = false := by
  have hD := h.paced.pos
  obtain ⟨j, rfl⟩ : ∃ j, k = j + 1 := ⟨k - 1, by omega⟩
  have hopening : InFrame D early byte j (b.opening before j) :=
    (inFrame_course h hops j (by omega)).kept (kept_after (hops j))
  rcases hopening.step with hnext | ⟨-, hfree⟩
  · -- There is no eleventh bit.
    have hslot := Nat.mul_le_mul_right (16 * D) hnext.sends.slot_le
    have hlag := hnext.paced.bitLag_le
    have hcount := hnext.count
    omega
  · exact hfree

theorem inFrame_start (h : b.chip.Regular D) (hrun : b.inReset = false)
    (hsent : b.chip.sent? b.drivenPins = some byte) : InFrame D b.chip.baud.bitLag byte 0 b.step := by
  have hb : b.chip.transmitter.busy = false := Chip.free_of_sent (by rw [hsent]; exact nofun)
  obtain ⟨htransmitter, hbaud⟩ := Chip.clock_start (h.rests hb).1 hsent
  have hchip := step_chip_of_run hrun
  refine ⟨running_of_run hrun, ?_, ?_, ?_, ?_⟩
  · rw [hchip, hbaud]
    exact h.paced.clock true
  · rw [hchip, htransmitter]
    exact ⟨rfl, rfl, rfl⟩
  · rw [hchip, hbaud]
    exact Transmitter.bitLag_pos h.paced
  · rw [hchip, hbaud, htransmitter, h.paced.bitLag_clock, h.bitTick hb]
    simp only [Transmitter.Phase.slot, Bool.false_eq_true, if_false]
    omega

/-! ## Every frame -/

/-- The step before took `a` to `b`, and neither was a reset. -/
structure Precedes (a b : Board) : Prop where
  reachable : a.Reachable
  run : a.inReset = false
  after : ∃ ops, (∀ op ∈ ops, op.between = true) ∧ b = a.step.after ops

/-- How far the bit clock is ahead when a byte is handed over. -/
theorem bitLag_of_precedes (hab : Precedes a b) (hD : b.chip.baud.Divided D)
    (hb : b.chip.transmitter.busy = false) :
    b.chip.baud.bitLag = if a.chip.transmitter.busy then 1 else 0 := by
  obtain ⟨ops, hops, rfl⟩ := hab.after
  have hkept : Kept a.step (a.step.after ops) := kept_after hops
  have hchip := step_chip_of_run hab.run
  rw [hkept.baud, hchip] at hD ⊢
  rw [hkept.transmitter, hchip] at hb
  exact (hab.reachable.regular D ⟨hD.pos, hD.oversample, hD.bit⟩).clock_bitLag hb

/-- Whatever has been done to the board before, and whatever is done to it then, but for a
    reset. -/
theorem spans_of_sent (h : b.Reachable) (hD : b.chip.baud.Divided D) (hrun : b.inReset = false)
    (hsent : b.chip.sent? b.drivenPins = some byte) (hops : ∀ k, ∀ op ∈ before k, op.between = true) :
    b.chip.baud.bitCount.toNat ≤ 1 ∧
      (∀ a, Precedes a b → b.chip.baud.bitCount.toNat = if a.chip.transmitter.busy then 1 else 0) ∧
      Spans (16 * D) b.chip.baud.bitCount.toNat byte fun k => (b.step.course before k).chip.transmitter := by
  have hregular := h.regular D hD
  have hb : b.chip.transmitter.busy = false := Chip.free_of_sent (by rw [hsent]; exact nofun)
  have hearly := (hregular.rests hb).2
  have hstart := inFrame_start hregular hrun hsent
  have hperiod : 10 * (16 * D) = 160 * D := by omega
  rw [hregular.bitCount hb]
  refine ⟨hearly, fun a ha => bitLag_of_precedes ha hD hb, Transmitter.spans_of_slots ?_ ?_ ?_ ?_⟩
  · have := hD.pos
    omega
  · intro k hk
    have hframe := inFrame_course hstart hops k (by omega)
    rw [hframe.sends.line, hframe.slot]
  · intro k hk
    exact (inFrame_course hstart hops k (by omega)).sends.busy
  · intro k hk
    exact free_course hstart hops hearly (by omega)

/-! ## Two frames in a row -/

/-- Two outputs of the byte 1, at sixteen steps to a bit. -/
def printing : Board :=
  (ofConfig ⟨1843200, 115200, 0⟩).after [.loadProgram [128, 128, 0], .loadTape [1], .pulseRunStart]

theorem printing_reachable (n : Nat) : (printing.steps n).Reachable :=
  .perform (.perform (.perform (.perform (.start _) (.loadProgram [128, 128, 0])) (.loadTape [1]))
    .pulseRunStart) (.step n)

/-- The second of them, with all that happens before it and then. -/
theorem spans_of_sent_printing :
    let b := printing.steps 167
    (b.Reachable ∧ b.chip.baud.Divided 1 ∧ b.inReset = false ∧ b.chip.sent? b.drivenPins = some 1 ∧
      ∀ k, ∀ op ∈ (fun _ => [] : Nat → List Operation) k, op.between = true) ∧
      b.chip.baud.bitCount.toNat = 1 ∧ Spans (16 * 1) b.chip.baud.bitCount.toNat 1
        fun k => (b.step.course (fun _ => []) k).chip.transmitter := by
  intro b
  have hD : b.chip.baud.Divided 1 := ⟨by decide, by decide +kernel, by decide +kernel⟩
  have hrun : b.inReset = false := by decide +kernel
  have hsent : b.chip.sent? b.drivenPins = some 1 := by decide +kernel
  have hops : ∀ k, ∀ op ∈ (fun _ => [] : Nat → List Operation) k, op.between = true := nofun
  obtain ⟨-, -, hspans⟩ := spans_of_sent (b := b) (printing_reachable 167) hD hrun hsent hops
  exact ⟨⟨printing_reachable 167, hD, hrun, hsent, hops⟩, by decide +kernel, hspans⟩

/-- Not every start bit has its whole period. -/
theorem short_start_bit :
    let b := printing.steps 167
    b.Reachable ∧ b.chip.baud.Divided 1 ∧ b.inReset = false ∧ b.chip.sent? b.drivenPins = some 1 ∧
      ¬ Spans 16 0 1 fun k => (b.step.course (fun _ => []) k).chip.transmitter := by
  intro b
  refine ⟨printing_reachable 167, ⟨by decide, by decide +kernel, by decide +kernel⟩,
    by decide +kernel, by decide +kernel, ?_⟩
  intro hspans
  have hlow : (b.step.course (fun _ => []) 15).chip.transmitter.line = false :=
    hspans.start 15 (by decide)
  have hhigh : (b.step.course (fun _ => []) 15).chip.transmitter.line = true := by decide +kernel
  exact absurd (hlow.symm.trans hhigh) Bool.false_ne_true

end

end Board

end BrainfuckBoard
