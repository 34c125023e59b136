import BrainfuckBoard.Proofs.Board.FreshStart
import BrainfuckBoard.Proofs.Board.Spans

/- The reset pin. A step is spent in reset if the pin is low in it or was low in the step
   before (`inReset_course`), and then it leaves the chip as a reset of the board does, with
   the stock program, a blank tape and all parts at their first states
   (`Chip.initial_reset`); only the wire, the pins and the time go on (`step_of_inReset`).
   When the pin has been high for two steps the board goes on like one that has been reset
   by hand: the count of the steps and the timeline are all that can tell
   (`goes_on_as_new`). -/
namespace BrainfuckBoard

namespace ResetSynchronizer

section
variable {r : ResetSynchronizer} {pin : Bool}

theorem asserted_clock : (r.clock pin).asserted = true ↔ pin = false ∨ r.highSteps = 0 := by
  cases pin with
  | false => exact ⟨fun _ => .inl rfl, fun _ => rfl⟩
  | true => cases hr : r.highSteps <;> simp [clock, stages, hr]

theorem highSteps_clock : (r.clock pin).highSteps = 0 ↔ pin = false := by
  cases pin with
  | false => exact ⟨fun _ => rfl, fun _ => rfl⟩
  | true => simp [clock, stages]

end

end ResetSynchronizer

namespace Ram

/-- The memory holds `cells`, shows nothing at its output, and nothing is requested of it. -/
structure Fresh {depth : Nat} (m : Ram depth) (cells : Vector UInt8 depth) : Prop where
  cells : m.cells = cells
  out : m.out = 0
  pendingRead : m.pendingRead = none
  pendingWrite : m.pendingWrite = none

end Ram

namespace Chip

/-- The first state of a chip, value by value; the divisors may be any. -/
structure Initial (c : Chip) : Prop where
  counts : c.baud.oversampleCount = 0 ∧ c.baud.bitCount = 0
  ticks : c.baud.oversampleTick = false ∧ c.baud.bitTick = false
  receiver : c.receiver = { data := 0, valid := false, frameError := false, busy := false, phase := .idle
                            first := true, second := true }
  transmitter : c.transmitter = { line := true, busy := false, phase := .idle }
  loader : c.loader = { phase := .idle, addr := 0, data := 0 }
  cpu : c.core.cpu = { phase := .idle, pc := 0, dp := 0, instr := 0, cell := 0, held := 0 }
  program : c.core.program.Fresh Image.stock
  tape : c.core.tape.Fresh (Vector.replicate tapeDepth 0)

theorem initial_reset (c : Chip) : c.reset.Initial where
  counts := ⟨rfl, rfl⟩
  ticks := ⟨rfl, rfl⟩
  receiver := rfl
  transmitter := rfl
  loader := rfl
  cpu := rfl
  program := ⟨rfl, rfl, rfl, rfl⟩
  tape := ⟨rfl, rfl, rfl, rfl⟩

end Chip

namespace Board

/-! ## A step in reset -/

/-- A step that is spent in reset: the chip is at its first state, its line is high, and there
    is nothing on the buses. -/
def held (b : Board) : Board :=
  { b with
    pins := { b.drivenPins with runStart := false }
    resetLine := b.resetLine.clock b.pins.reset
    chip := b.reset.chip
    terminal := b.nextTerminal true
    cycles := b.cycles + 1
    timeline := b.timeline.record
      { cycle := b.cycles, pc := 0, dp := 0, cell := 0, instr := 0, phase := .idle
        tx := true, rx := b.drivenPins.rx, events := [] } }

section
variable {b b' : Board} {op : Operation} {ops : List Operation} {before : Nat → List Operation}
  {resetLine : ResetSynchronizer} {cycles n : Nat} {timeline : Timeline}

theorem step_of_inReset (h : b.inReset = true) : b.step = b.held := by
  have hasserted : (b.resetLine.clock b.pins.reset).asserted = true := h
  simp only [step, hasserted]
  rfl

theorem inReset_iff : b.inReset = true ↔ b.pins.reset = false ∨ b.resetLine.highSteps = 0 :=
  ResetSynchronizer.asserted_clock

/-- A reset leaves the divisors and nothing else of a chip. -/
theorem reset_chip (h : b'.chip.baud.reset = b.chip.baud.reset) : b'.reset.chip = b.reset.chip := by
  simp only [reset, Chip.reset, h]

theorem reset_chip_step (b : Board) : b.step.reset.chip = b.reset.chip :=
  reset_chip (reset_nextChip b _)

theorem reset_chip_after (hops : ∀ op ∈ ops, op.live = true) : (b.after ops).reset.chip = b.reset.chip :=
  reset_chip (congrArg BaudClock.reset (spared_after hops).baud)

theorem reset_chip_course (hops : ∀ k, ∀ op ∈ before k, op.live = true) : ∀ n,
    (b.course before n).reset.chip = b.reset.chip
  | 0 => rfl
  | n + 1 => by
    calc (b.course before (n + 1)).reset.chip
      _ = (b.opening before n).reset.chip := reset_chip_step _
      _ = (b.course before n).reset.chip := reset_chip_after (hops n)
      _ = b.reset.chip := reset_chip_course hops n

/-- The reset line remembers one step. -/
theorem inReset_course (hops : ∀ k, ∀ op ∈ before k, op.live = true) (n : Nat) :
    (b.reset.opening before n).inReset = true ↔ (b.reset.opening before n).pins.reset = false ∨
      ∃ m, n = m + 1 ∧ (b.reset.opening before m).pins.reset = false := by
  have hspared : Spared (b.reset.course before n) (b.reset.opening before n) := spared_after (hops n)
  rw [inReset_iff, hspared.resetLine]
  cases n with
  | zero =>
    simp [course, reset, ResetSynchronizer.released, ResetSynchronizer.clock, ResetSynchronizer.stages]
  | succ m =>
    have hclock : ((b.reset.course before (m + 1)).resetLine.highSteps = 0) ↔
        (b.reset.opening before m).pins.reset = false := ResetSynchronizer.highSteps_clock
    rw [hclock]
    simp

/-! ## The same board at another time -/

/-- Another reset line, another count of steps and another timeline. -/
def shifted (b : Board) (resetLine : ResetSynchronizer) (cycles : Nat) (timeline : Timeline) : Board :=
  { b with resetLine, cycles, timeline }

/-- Nothing but the count of steps and the timeline can tell the boards apart. -/
def SameButTime (b b' : Board) : Prop := b' = b.shifted b.resetLine b'.cycles b'.timeline

theorem perform_shifted (h : op.live = true) : ((b.shifted resetLine cycles timeline).perform op).2 =
    (b.perform op).2.shifted resetLine cycles timeline := by
  cases op with
  | reset | configure _ => exact absurd h Bool.false_ne_true
  | pulseRunStart | setPin _ _ | attach _ | send _ | sendFrame _ _ | resetTerminal | setPeriod _
  | setGap _ | loadProgram _ | loadTape _ => rfl
  | _ => exact absurd h Bool.false_ne_true

theorem after_shifted (h : ∀ op ∈ ops, op.live = true) :
    (b.shifted resetLine cycles timeline).after ops = (b.after ops).shifted resetLine cycles timeline := by
  induction ops generalizing b with
  | nil => rfl
  | cons op ops ih =>
    obtain ⟨hop, hops⟩ := List.forall_mem_cons.mp h
    calc (b.shifted resetLine cycles timeline).after (op :: ops)
      _ = ((b.perform op).2.shifted resetLine cycles timeline).after ops := by
        rw [← perform_shifted hop]
        rfl
      _ = (b.after (op :: ops)).shifted resetLine cycles timeline := ih hops

/-- Out of reset the reset line does not matter, and it is released. -/
theorem step_shifted (h : b.inReset = false) (hline : resetLine.highSteps ≠ 0) :
    SameButTime b.step (b.shifted resetLine cycles timeline).step := by
  obtain ⟨hpin, hreleased⟩ := ResetSynchronizer.released_of_clock h
  have hrun : (b.shifted resetLine cycles timeline).inReset = false := by
    rw [Bool.eq_false_iff, ne_eq, inReset_iff]
    rintro (hlow | hzero)
    · exact absurd (hpin.symm.trans hlow) Bool.true_eq_false.mp
    · exact hline hzero
  obtain ⟨-, hreleased'⟩ := ResetSynchronizer.released_of_clock hrun
  simp only [SameButTime, step, hreleased, hreleased']
  rfl

theorem SameButTime.step (h : SameButTime b b') : SameButTime b.step b'.step := by
  rw [h]
  rfl

theorem SameButTime.after (h : SameButTime b b') (hops : ∀ op ∈ ops, op.live = true) :
    SameButTime (b.after ops) (b'.after ops) := by
  have hline : (b.after ops).resetLine = b.resetLine := (spared_after hops).resetLine
  rw [h, after_shifted hops, SameButTime, hline]
  rfl

theorem SameButTime.course (h : SameButTime b b') (hops : ∀ k, ∀ op ∈ before k, op.live = true) :
    ∀ n, SameButTime (b.course before n) (b'.course before n)
  | 0 => h
  | n + 1 => ((SameButTime.course h hops n).after (hops n)).step

theorem course_add (m : Nat) : ∀ k, b.course before (m + k) =
    (b.course before m).course (fun j => before (m + j)) k
  | 0 => rfl
  | k + 1 => by
    show ((b.course before (m + k)).after (before (m + k))).step = _
    rw [course_add m k]
    rfl

/-! ## The end of a reset -/

/-- A board that has just spent a step in reset is one that has just been reset, but for the
    reset line and the time. -/
theorem reset_held (b : Board) : ∃ timeline, b.held.reset = b.held.shifted .released 0 timeline :=
  ⟨_, rfl⟩

/-- The first step after a reset, and all that come then. -/
theorem goes_on_as_new (hops : ∀ k, ∀ op ∈ before k, op.live = true)
    (hheld : (b.opening before n).inReset = true) (hrun : (b.opening before (n + 1)).inReset = false)
    (k : Nat) : SameButTime (b.course before (n + 2 + k))
      ((b.course before (n + 1)).reset.course (fun j => before (n + 1 + j)) (1 + k)) := by
  have hcourse : b.course before (n + 1) = (b.opening before n).held := step_of_inReset hheld
  obtain ⟨timeline, hreset⟩ := reset_held (b.opening before n)
  rw [← hcourse] at hreset
  have hfirst : SameButTime (b.course before (n + 2))
      (((b.course before (n + 1)).reset.after (before (n + 1))).step) := by
    rw [hreset, after_shifted (hops (n + 1))]
    exact step_shifted hrun (by decide)
  have hnext : (fun j => before (n + 1 + (1 + j))) = fun j => before (n + 2 + j) := by
    funext j
    rw [← Nat.add_assoc]
  rw [course_add (n + 2) k, course_add 1 k, hnext]
  exact hfirst.course (fun j => hops (n + 2 + j)) k

/-- What the reset pin does to a board in step `n` after a reset. -/
structure ObeysPin (b : Board) (before : Nat → List Operation) (n : Nat) : Prop where
  asserted : (b.reset.opening before n).inReset = true ↔ (b.reset.opening before n).pins.reset = false ∨
    ∃ m, n = m + 1 ∧ (b.reset.opening before m).pins.reset = false
  held : (b.reset.opening before n).inReset = true →
    b.reset.course before (n + 1) = (b.reset.opening before n).held ∧
      (b.reset.course before (n + 1)).chip = b.reset.chip
  initial : (b.reset.opening before n).inReset = true → (b.reset.course before (n + 1)).chip.Initial
  as_new : (b.reset.opening before n).inReset = true → (b.reset.opening before (n + 1)).inReset = false →
    ∀ k, SameButTime (b.reset.course before (n + 2 + k))
      ((b.reset.course before (n + 1)).reset.course (fun j => before (n + 1 + j)) (1 + k))

/-- Whenever the pin moves, and whatever the board is doing. -/
theorem restarts_of_pin (hops : ∀ k, ∀ op ∈ before k, op.live = true) (n : Nat) : ObeysPin b before n := by
  have hcourse (hheld : (b.reset.opening before n).inReset = true) :
      b.reset.course before (n + 1) = (b.reset.opening before n).held := step_of_inReset hheld
  refine ⟨inReset_course hops n, fun hheld => ⟨hcourse hheld, ?_⟩, fun hheld => ?_,
    fun hheld hrun k => goes_on_as_new hops hheld hrun k⟩
  · calc (b.reset.course before (n + 1)).chip
      _ = (b.reset.opening before n).reset.chip := by rw [hcourse hheld]; rfl
      _ = (b.reset.course before n).reset.chip := reset_chip_after (hops n)
      _ = b.reset.reset.chip := reset_chip_course hops n
      _ = b.reset.chip := rfl
  · rw [hcourse hheld]
    exact Chip.initial_reset _

/-- At 1.8432 MHz: the pin bounces while a byte comes in and another is being sent, and a run
    is to be started in the middle of it. -/
theorem restarts_of_pin_bouncing :
    let b := ofConfig ⟨1843200, 115200, 8⟩
    let before : Nat → List Operation := fun k =>
      if k = 0 then [.loadProgram [128, 0], .loadTape [65], .pulseRunStart, .send [66]]
      else if k = 60 then [.setPin .reset false]
      else if k = 61 then [.setPin .reset true, .pulseRunStart]
      else if k = 62 then [.setPin .reset false, .setPin .reset true]
      else []
    (∀ k, ∀ op ∈ before k, op.live = true) ∧
      ((b.reset.opening before 60).chip.transmitter.busy = true ∧
        (b.reset.opening before 60).chip.receiver.busy = true) ∧
      ((b.reset.opening before 61).inReset = true ∧ (b.reset.opening before 62).inReset = false) ∧
      ObeysPin b before 61 := by
  intro b before
  have hops : ∀ k, ∀ op ∈ before k, op.live = true := by
    intro k
    dsimp only [before]
    repeat' split
    all_goals decide
  exact ⟨hops, by decide +kernel, by decide +kernel, restarts_of_pin hops 61⟩

end

end Board

end BrainfuckBoard
