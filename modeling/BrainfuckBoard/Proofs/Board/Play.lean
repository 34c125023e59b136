import BrainfuckBoard.Proofs.Board.Departures
import BrainfuckBoard.Proofs.Board.Upload

/- A program that runs on the board, whatever frames are on the wire. `Plays` is what holds
   between two steps: the processor is in a state that the instruction set leads to, with
   the exchanges that have been made on the way there. A step keeps it (`Plays.step`): it
   stays within an instruction or ends one, and the receiver shows what is due next. -/
namespace BrainfuckBoard.Board

/-! ## The signals of a step -/

/-- What the core sees in this step. -/
def signals (b : Board) : Core.Inputs := b.chip.coreInputs { b.pins with rx := b.terminal.line }

section
variable {b : Board} {D : Nat} {store : Vector Word 32} {seen : List Exchange} {s : Word.State}
  {due : List Frame} {words : Bytes}

theorem step_core (h : b.Awake) : b.step.chip.core = b.chip.core.clock b.signals := by
  rw [h.step_chip]
  rfl

theorem received_signals (hu : b.pins.upload = false) : b.signals.received = b.chip.receiver.byte? := by
  simp [signals, Chip.coreInputs, Chip.route, Route.select, Route.cpuByte?, Receiver.byte?, hu]

theorem uploaded_signals (hl : b.chip.loader.phase = .idle) : b.signals.uploaded = none := by
  simp [signals, Chip.coreInputs, Loader.written?, Loader.writes, hl]

theorem sent_signals (h : b.Awake) :
    b.chip.sent? b.drivenPins = (b.chip.core.requests b.signals).send := by
  rw [h.driven]
  rfl

theorem step_loader (h : b.Awake) (hu : b.pins.upload = false) : b.step.chip.loader.phase = .idle := by
  rw [h.step_chip]
  simp [Chip.clock, Loader.clock, hu]

/-! ## What holds between two steps -/

/-- After the exchanges `seen` the program is in state `s`, and the frames in `due` are on
    their way to it. -/
structure Plays (D : Nat) (store : Vector Word 32) (b : Board) (seen : List Exchange) (s : Word.State)
    (due : List Frame) : Prop where
  run : Run (Word.step store) {} seen s
  tracks : Core.Tracks store b.chip.core s
  upload : b.pins.upload = false
  loader : b.chip.loader.phase = .idle
  wired : Wired D b due
  speaks : Speaks D b (sentBytes seen)

theorem Plays.step (h : Plays D store b seen s due) (hbound : 152 * D < 2 ^ 32) :
    ∃ seen' t due', Core.Moves store b.chip.core b.signals s seen' t ∧
      Plays D store b.step (seen ++ seen') t due' ∧
      b.step.chip.receiver.shown ++ due'.map Frame.reading = due.map Frame.reading ∧ due' <:+ due := by
  have ha := h.wired.awake
  obtain ⟨seen', t, hmoves, htracks⟩ := h.tracks.clock (uploaded_signals h.loader)
  obtain ⟨due', hwired, hshown, hsuffix⟩ := h.wired.step
  have hspeaks := h.speaks.step hbound
  rw [sent_signals ha, hmoves.sent.1, ← sentBytes_append] at hspeaks
  refine ⟨seen', t, due', hmoves, ⟨h.run.trans hmoves.run, ?_, ?_, ?_, hwired, hspeaks⟩, hshown, hsuffix⟩
  · rw [step_core ha]
    exact htracks
  · rw [ha.step_pins]
    exact h.upload
  · exact step_loader ha h.upload

/-! ## From the start of a run -/

theorem clock_start {c : Core} {i : Core.Inputs} (hc : c.cpu = {}) (hs : i.runStart = true)
    (hi : i.uploaded = none) (hp : c.program.Settled) (ht : c.tape = .blank tapeDepth) :
    Core.Tracks c.program.cells (c.clock i) {} ∧ (c.requests i).send = none := by
  have hstep : c.cpuStep i = ({ phase := .fetch }, {}) := by
    simp [Core.cpuStep, Cpu.step, hc, Core.cpuInputs, hs]
  have hcpu : (c.clock i).cpu = { phase := .fetch } := by rw [Core.clock, hstep]
  have hreq : c.requests i = {} := by rw [Core.requests, hstep]
  have hprogram := Core.clock_program_none hp hi (by rw [hreq])
  have htape := Core.clock_tape_none (i := i) (by rw [ht]; exact ⟨rfl, rfl⟩) (by rw [hreq]) (by rw [hreq])
  have htracked : (c.clock i).tape = .blank tapeDepth := htape.trans ht
  refine ⟨⟨by rw [hprogram], ⟨rfl, rfl⟩, ⟨rfl, rfl⟩, ⟨?_, ?_, ?_⟩, ?_⟩, by rw [hreq]⟩
  · rw [hcpu]
    rfl
  · rw [hcpu]
    rfl
  · rw [htracked]
    rfl
  · simp [Core.Prepared, hcpu]

section
variable (h : b.Ready D words)
include h

theorem Ready.wired_pulse : Wired D b.pulseRunStart [] where
  awake := ⟨h.wired.awake.attached, h.wired.awake.resetPin, h.wired.awake.released⟩
  paced := h.wired.paced
  period := h.wired.period
  placed := h.wired.placed
  coherent := h.wired.coherent
  listening := h.wired.listening
  clear := h.wired.clear

theorem Ready.speaks_pulse : Speaks D b.pulseRunStart [] where
  awake := h.wired_pulse.awake
  paced := h.wired.paced
  period := h.wired.period
  speaking := by
    simp only [pulseRunStart, h.untouched.bitLag, h.untouched.transmitter, h.untouched.listener]
    exact ⟨[], .silent rfl rfl rfl (Nat.zero_le _) rfl, rfl⟩
  errors := by simp only [pulseRunStart, h.untouched.listener]

theorem Ready.tracks_pulse :
    Core.Tracks b.chip.core.program.cells (b.chip.core.clock b.pulseRunStart.signals) {} ∧
      b.pulseRunStart.chip.sent? b.pulseRunStart.drivenPins = none := by
  have hrun : b.pulseRunStart.signals.runStart = true := by
    simp [signals, Chip.coreInputs, pulseRunStart, h.upload]
  have hloader : b.pulseRunStart.signals.uploaded = none := uploaded_signals h.loader.1
  rw [sent_signals h.wired_pulse.awake]
  exact clock_start h.untouched.cpu hrun hloader h.settled h.untouched.tape

/-- The step that starts the run. -/
theorem plays_start (hbound : 152 * D < 2 ^ 32) :
    Plays D b.chip.core.program.cells b.pulseRunStart.step [] {} [] ∧
      b.pulseRunStart.step.chip.receiver.byte? = none := by
  have ha := h.wired_pulse.awake
  obtain ⟨htracks, hsent⟩ := h.tracks_pulse
  obtain ⟨due', hwired, hshown, hsuffix⟩ := h.wired_pulse.step
  obtain rfl := List.eq_nil_of_suffix_nil hsuffix
  have hbytes := bytes_of_shown hshown
  rw [List.filterMap_nil, List.append_nil, Option.toList_eq_nil_iff] at hbytes
  have hspeaks := h.speaks_pulse.step hbound
  rw [hsent] at hspeaks
  refine ⟨⟨.here _, ?_, ?_, step_loader ha h.upload, hwired, hspeaks⟩, hbytes⟩
  · rw [step_core ha]
    exact htracks
  · rw [ha.step_pins]
    exact h.upload

end

/-- Bytes that are queued are due after the rest. -/
theorem Plays.send (h : Plays D store b seen s due) (bytes : Bytes) :
    Plays D store (b.send bytes) seen s (due ++ bytes.map fun byte => b.terminal.frame byte true) where
  run := h.run
  tracks := h.tracks
  upload := h.upload
  loader := h.loader
  wired := h.wired.send bytes
  speaks :=
    have hqueues : Queues b (b.send bytes) _ := (Operation.send bytes).queues rfl
    h.speaks.queues hqueues

end

end BrainfuckBoard.Board
