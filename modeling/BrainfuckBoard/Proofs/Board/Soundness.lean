import BrainfuckBoard.Proofs.Board.FreshStart
import BrainfuckBoard.Proofs.Processor.Latches
import BrainfuckBoard.Proofs.Serial.Ranges

/- What can be relied on at any time, however the board has been handled: no counter runs
   away, no flag contradicts its phase, the terminal reads its queue inside the first frame,
   and a phase of the processor finds the cell and the word it relies on (`Sound`). The
   parts keep their shares of it by themselves (`Chip.Orderly.clock`), and in reset the
   chip has them from the start. Only a tape that is filled without the wire can leave the
   processor with a cell that has changed under it. -/
namespace BrainfuckBoard

theorem Loader.addr_clock_lt {l : Loader} {depth : Nat} (h : l.addr.toNat < depth) (hd : depth ≤ 256)
    (upload : Bool) (byte? : Option UInt8) : (l.clock upload byte? depth).addr.toNat < depth := by
  have hpos := Nat.zero_lt_of_lt h
  cases upload with
  | false => exact hpos
  | true =>
    cases hp : l.phase with
    | idle => cases byte? <;> simpa [Loader.clock, hp] using h
    | write => simpa [Loader.clock, hp] using h
    | wait =>
      have hmod := Nat.mod_lt (l.addr.toNat + 1) hpos
      have hfits : (l.addr.toNat + 1) % depth % 256 = (l.addr.toNat + 1) % depth :=
        Nat.mod_eq_of_lt (by omega)
      simpa [Loader.clock, hp, hfits] using hmod

theorem Sender.Placed.step_lt {s : Sender} {period : Nat} (h : s.Placed period) (hp : 0 < period) :
    s.step.toNat < period := by
  unfold Placed at h
  split at h
  · rw [h.2]
    exact hp
  · exact h.2

namespace Chip

structure Orderly (c : Chip) : Prop where
  core : c.core.Coherent
  addr : c.loader.addr.toNat < programDepth
  baud : c.baud.InRange
  receiver : c.receiver.Coherent
  receiverPhase : c.receiver.phase.InRange
  transmitter : c.transmitter.Regular

theorem orderly_reset (c : Chip) : c.reset.Orderly where
  core := Core.coherent_initial
  addr := show (0 : UInt8).toNat < programDepth by decide
  baud := BaudClock.inRange_reset _
  receiver := Receiver.coherent_initial
  receiverPhase := trivial
  transmitter := .inl rfl

theorem Orderly.clock {c : Chip} (h : c.Orderly) (pins : Pins) : (c.clock pins).Orderly where
  core := h.core.clock _
  addr := Loader.addr_clock_lt h.addr (by decide) _ _
  baud := BaudClock.inRange_clock _ _
  receiver := h.receiver.clock
  receiverPhase := Receiver.inRange_clock h.receiverPhase
  transmitter := h.transmitter.clock _ _

/-- The core may have been handled. -/
theorem Orderly.of_core {c : Chip} (h : c.Orderly) {core : Core} (hcore : core.Coherent) :
    ({ c with core } : Chip).Orderly :=
  ⟨hcore, h.addr, h.baud, h.receiver, h.receiverPhase, h.transmitter⟩

end Chip

namespace Board

/-- What can be relied on. -/
structure Sound (b : Board) : Prop where
  pc : b.cpu.pc.toNat < 32
  dp : b.cpu.dp.toNat < 16
  addr : b.chip.loader.addr.toNat < 32
  oversampleCount : b.chip.baud.oversampleCount.toNat < max 1 b.chip.baud.oversampleDivisor.toNat
  bitCount : b.chip.baud.bitCount.toNat < max 1 b.chip.baud.bitDivisor.toNat
  receiverBusy : b.chip.receiver.busy = true ↔ b.chip.receiver.linePhase ≠ .idle
  transmitterBusy : b.chip.transmitter.busy = true ↔ b.chip.transmitter.linePhase ≠ .idle
  line : Transmitter.LineIs b.chip.transmitter.line b.chip.transmitter.linePhase
  flags : ¬(b.chip.receiver.valid = true ∧ b.chip.receiver.frameError = true)
  receiverPhase : b.chip.receiver.phase.InRange
  transmitterBit : ∀ byte i, b.chip.transmitter.phase = .bits byte i → i ≤ 7
  place : ∀ frame rest, b.terminal.sender.queue = frame :: rest → b.terminal.sender.bit < frame.length
  placeIdle : b.terminal.sender.queue = [] → b.terminal.sender.bit = 0 ∧ b.terminal.sender.step = 0
  placeStep : b.terminal.sender.step < b.terminal.period
  timeline : b.timeline.toList.length ≤ b.config.traceLimit
  timelineSize : b.timeline.size = b.timeline.toList.length
  halt : b.cpu.phase = .halt → b.cpu.instr = 0
  waitCell : b.cpu.phase = .waitCell → b.chip.core.tape.out = b.chip.core.tape.peek b.cpu.dp.toNat
  execute : b.cpu.phase = .execute → b.cpu.instr.opcode.readsCell = true →
    b.cpu.cell = b.chip.core.tape.peek b.cpu.dp.toNat
  waitSend : b.cpu.phase = .waitSend → b.cpu.instr.opcode = .output ∧
    b.cpu.held = b.chip.core.tape.peek b.cpu.dp.toNat
  waitReceive : b.cpu.phase = .waitReceive → b.cpu.instr.opcode = .input

/-- The parts of the board, each by itself. -/
structure Orderly (b : Board) : Prop extends Tuned b where
  chip : b.chip.Orderly
  placed : b.terminal.sender.Placed b.terminal.period.toNat
  frames : b.timeline.toList.length ≤ b.timeline.limit

section
variable {b b' : Board} {op : Operation}

theorem frames_reset (b : Board) : b.reset.timeline.toList.length ≤ b.reset.timeline.limit := by
  rw [show b.reset.timeline = { limit := b.config.traceLimit } from rfl, Timeline.toList_empty]
  exact Nat.zero_le _

theorem orderly_configure (b : Board) (config : Config) : (b.configure config).Orderly where
  toTuned := tuned_configure b config
  chip := Chip.orderly_reset _
  placed := Sender.placed_empty _
  frames := frames_reset _

theorem Orderly.step (h : b.Orderly) : b.step.Orderly where
  toTuned := h.toTuned.step
  chip := by
    change (b.nextChip _).Orderly
    unfold nextChip
    split
    · exact Chip.orderly_reset _
    · exact h.chip.clock _
  placed := by
    change (b.nextTerminal _).sender.Placed (b.nextTerminal _).period.toNat
    unfold nextTerminal
    split
    · exact (Sender.ahead_advance h.placed rfl).1
    · exact h.placed
  frames := by
    have hlimit : b.step.timeline.limit = b.timeline.limit := limit_record _ _
    rw [hlimit]
    exact Timeline.length_record_le _ _

theorem Orderly.outside (h : b.Orderly) (hb : Outside b b')
    (hcpu : b'.chip.core.cpu = b.chip.core.cpu) (htape : b'.chip.core.tape = b.chip.core.tape) :
    b'.Orderly := by
  have htuned := h.toTuned.outside hb
  obtain ⟨pins, attached, terminal, core, rfl, hterminal, -⟩ := hb
  have hcore : core.Coherent := h.chip.core.of_eq hcpu htape
  refine ⟨htuned, h.chip.of_core hcore, ?_, h.frames⟩
  cases hterminal with
  | kept => exact h.placed
  | queue frames => exact (Sender.ahead_enqueue h.placed h.period_pos frames).1
  | gap bits => exact h.placed
  | restart => exact Sender.placed_empty _
  | period steps => exact Sender.placed_empty _

theorem Orderly.perform (h : b.Orderly) (hop : op.stepless = true) (ht : op.sparesTape = true) :
    (b.perform op).2.Orderly := by
  rcases op.live_or_reset hop with hlive | rfl | ⟨config, rfl⟩
  · obtain ⟨hcpu, -, htape⟩ := op.core_spared hlive
    exact h.outside (op.outside hlive) hcpu (htape ht)
  · exact ⟨h.toTuned.reset, Chip.orderly_reset _, h.placed, frames_reset b⟩
  · exact orderly_configure b config

theorem Orderly.sound (h : b.Orderly) : b.Sound := by
  have hlatched : ∀ p, b.cpu.phase = p → b.chip.core.Latched p := by
    rintro p rfl
    exact h.chip.core.latched
  have hplaced := h.placed
  exact
    { pc := h.chip.core.rings.pc
      dp := h.chip.core.rings.dp
      addr := h.chip.addr
      oversampleCount := h.chip.baud.oversample
      bitCount := h.chip.baud.bit
      receiverBusy := h.chip.receiver.busy_iff_linePhase
      transmitterBusy := h.chip.transmitter.busy_iff_linePhase
      line := h.chip.transmitter.line
      flags := fun ⟨hv, he⟩ => absurd ((h.chip.receiver.valid hv).2.symm.trans he) (by decide)
      receiverPhase := h.chip.receiverPhase
      transmitterBit := fun byte i hp => h.chip.transmitter.bit_le hp
      place := fun frame rest hq => by
        rw [Sender.Placed, hq] at hplaced
        exact hplaced.1
      placeIdle := fun hq => by
        rw [Sender.Placed, hq] at hplaced
        exact hplaced
      placeStep := UInt32.lt_iff_toNat_lt.mpr (h.placed.step_lt h.period_pos)
      timeline := Nat.le_trans h.frames (Nat.le_of_eq h.limit)
      timelineSize := (Timeline.length_toList _).symm
      halt := hlatched .halt
      waitCell := hlatched .waitCell
      execute := hlatched .execute
      waitSend := hlatched .waitSend
      waitReceive := hlatched .waitReceive }

/-- However the board has been handled, the tape apart. -/
theorem sound_after (config : Config) {ops : List Operation} (h : ∀ op ∈ ops, op.sparesTape = true) :
    ((ofConfig config).after ops).Sound := by
  have hstart : (ofConfig config).Orderly := orderly_configure _ config
  have hend : ((ofConfig config).after ops).Orderly :=
    after_keeps (P := Orderly) Operation.sparesTape (fun _ hb => hb.step)
      (fun _ _ hop ht hb => hb.perform hop ht) (fun _ => rfl) (fun _ => rfl) hstart h
  exact hend.sound

/-- A reset in the middle of a frame, an upload, and a program that waits for the transmitter
    with its second byte. -/
theorem sound_after_interrupted :
    let ops : List Operation := [.send [65], .pulseRunStart, .step 40, .setPin .reset false, .step 1,
      .setPin .reset true, .resetTerminal, .step 2, .upload [128, 128, 0] 1000, .pulseRunStart, .step 30]
    let b := (ofConfig ⟨1843200, 115200, 10⟩).after ops
    (∀ op ∈ ops, op.sparesTape = true) ∧ b.cpu.phase = .waitSend ∧ b.cpu.pc = 1 ∧ b.Sound := by
  intro ops b
  have hops : ∀ op ∈ ops, op.sparesTape = true := by decide
  have hphase : b.cpu.phase = .waitSend ∧ b.cpu.pc = 1 := by decide +kernel
  exact ⟨hops, hphase.1, hphase.2, sound_after _ hops⟩

/-- The processor does not notice a tape that is filled after it has read its cell. -/
example : ¬((ofConfig {}).after [.loadProgram [128], .pulseRunStart, .step 6, .loadTape [1]]).Sound :=
  fun h => absurd (h.execute (by decide +kernel) (by decide +kernel)) (by decide +kernel)

end

end Board

end BrainfuckBoard
