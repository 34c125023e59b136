import BrainfuckBoard.Circuit.Core
import BrainfuckBoard.Instruction.Semantics
import BrainfuckBoard.Proofs.Language.Exchanges

/- The processor between its memories, against the instruction set.
   `Tracks store c s`: the core `c` runs the words of `store`, and `s` is the state of
   the instruction set before the instruction that is under way. In each phase the
   registers hold what the later phases rely on: the word, the cell, the byte that
   waits to be sent. In `writeCell` the instruction is over already.
   `Tracks.clock`: a step stays within an instruction or ends exactly one, and then
   it has sent what the instruction sends, and taken what it takes. -/
namespace BrainfuckBoard

namespace Ram

variable {depth : Nat} {m : Ram depth}

/-- Nothing is requested, as always when a step begins. -/
def Settled (m : Ram depth) : Prop := m.pendingRead = none ∧ m.pendingWrite = none

theorem clock_settled (h : m.Settled) : m.clock = m := by
  obtain ⟨cells, nonempty, out, read, write⟩ := m
  obtain ⟨rfl, rfl⟩ := h
  rfl

theorem clock_requestRead (h : m.Settled) (addr : Nat) :
    (m.requestRead addr).clock = { m with out := m.peek addr } := by
  obtain ⟨cells, nonempty, out, read, write⟩ := m
  obtain ⟨rfl, rfl⟩ := h
  rfl

theorem clock_requestWrite (h : m.Settled) (addr : Nat) (value : UInt8) :
    (m.requestWrite addr value).clock =
      { m with cells := m.cells.set (m.index addr) value (m.index addr).isLt } := by
  obtain ⟨cells, nonempty, out, read, write⟩ := m
  obtain ⟨rfl, rfl⟩ := h
  rfl

theorem index_eq {addr : Nat} {i : Fin depth} (h : addr = i.val) : m.index addr = i :=
  Fin.ext (by rw [index, h]; exact Nat.mod_eq_of_lt i.isLt)

theorem peek_eq {addr : Nat} {i : Fin depth} (h : addr = i.val) : m.peek addr = m.cells[i] := by
  simp only [peek, index_eq h]

end Ram

theorem Cpu.with_phase {c : Cpu} {phase : Cpu.Phase} (h : c.phase = phase) :
    { c with phase } = c := by
  subst h
  rfl

namespace Core

variable {store : Vector Word 32} {c : Core} {s t : Word.State} {i : Inputs}

/-- The word at the address of the state. -/
def wordAt (store : Vector Word 32) (s : Word.State) : Word := store.get s.pc

theorem step_eq_effect (store : Vector Word 32) (s : Word.State) :
    Word.step store s = Word.effect (wordAt store s) s := rfl

/-- The registers and the tape show a state of the instruction set. -/
structure Shows (c : Core) (s : Word.State) : Prop where
  pc : c.cpu.pc.toNat = s.pc.val
  dp : c.cpu.dp.toNat = s.tape.head.val
  cells : c.tape.cells = s.tape.cells

/-- What the phase promises about the other registers. -/
def Prepared (store : Vector Word 32) (c : Core) (s : Word.State) : Prop :=
  let word := wordAt store s
  let loaded := c.cpu.instr = word ∧ word.isHalt = false
  match c.cpu.phase with
  | .idle => False
  | .fetch | .writeCell => True
  | .waitFetch => c.program.out = word
  | .decode => c.cpu.instr = word
  | .readCell => loaded ∧ word.opcode.readsCell = true
  | .waitCell => loaded ∧ word.opcode.readsCell = true ∧ c.tape.out = s.tape.current
  | .execute => loaded ∧ (word.opcode.readsCell = true → c.cpu.cell = s.tape.current)
  | .waitSend => loaded ∧ word.opcode = .output ∧ c.cpu.held = s.tape.current
  | .waitReceive => loaded ∧ word.opcode = .input
  | .halt => word.isHalt = true

structure Tracks (store : Vector Word 32) (c : Core) (s : Word.State) : Prop where
  program : c.program.cells = store
  program_settled : c.program.Settled
  tape_settled : c.tape.Settled
  shows : c.Shows s
  prepared : c.Prepared store s

/-! ## The memories after a step -/

theorem clock_program_read (h : c.program.Settled) (hi : i.uploaded = none) {addr : UInt8}
    (hr : (c.requests i).programRead = some addr) :
    (c.clock i).program = { c.program with out := c.program.peek addr.toNat } := by
  simp only [clock, programAsked, hi, hr]
  exact Ram.clock_requestRead h _

theorem clock_program_none (h : c.program.Settled) (hi : i.uploaded = none)
    (hr : (c.requests i).programRead = none) : (c.clock i).program = c.program := by
  simp only [clock, programAsked, hi, hr]
  exact Ram.clock_settled h

theorem clock_tape_read (h : c.tape.Settled) {addr : UInt8}
    (hw : (c.requests i).tapeWrite = none) (hr : (c.requests i).tapeRead = some addr) :
    (c.clock i).tape = { c.tape with out := c.tape.peek addr.toNat } := by
  simp only [clock, tapeAsked, hw, hr]
  exact Ram.clock_requestRead h _

theorem clock_tape_write (h : c.tape.Settled) {addr value : UInt8}
    (hw : (c.requests i).tapeWrite = some (addr, value)) (hr : (c.requests i).tapeRead = none) :
    (c.clock i).tape = { c.tape with cells := c.tape.cells.set (c.tape.index addr.toNat) value } := by
  simp only [clock, tapeAsked, hw, hr]
  exact Ram.clock_requestWrite h _ _

theorem clock_tape_none (h : c.tape.Settled)
    (hw : (c.requests i).tapeWrite = none) (hr : (c.requests i).tapeRead = none) :
    (c.clock i).tape = c.tape := by
  simp only [clock, tapeAsked, hw, hr]
  exact Ram.clock_settled h

/-! ## States of the instruction set after an instruction -/

theorem Shows.target (h : c.Shows s) (move : Int) :
    (c.cpu.target move programDepth).toNat = (ringPlace s.pc move).val := by
  rw [Cpu.target, h.pc]
  exact ringMove_eq_ringPlace (by decide) s.pc move

theorem Shows.moved (h : c.Shows s) (move : Int) :
    (ringMove c.cpu.dp.toNat move tapeDepth).toNat = (ringPlace s.tape.head move).val := by
  rw [h.dp]
  exact ringMove_eq_ringPlace (by decide) s.tape.head move

theorem Shows.written (h : c.Shows s) (value : UInt8) :
    c.tape.cells.set (c.tape.index c.cpu.dp.toNat) value = (s.tape.write value).cells := by
  simp only [Ram.index_eq h.dp, h.cells]
  rfl

theorem Shows.current (h : c.Shows s) : c.tape.peek c.cpu.dp.toNat = s.tape.current := by
  rw [Ram.peek_eq h.dp, h.cells]
  rfl

/-! ## A step of each phase -/

/-- Nothing is sent in this step and the tape is not written. -/
def Quiet (c : Core) (i : Inputs) : Prop :=
  (c.requests i).send = none ∧ (c.requests i).tapeWrite = none

theorem clock_cpu (c : Core) (i : Inputs) : (c.clock i).cpu = (c.cpuStep i).1 := rfl

theorem clock_program_cells (h : c.program.Settled) (hi : i.uploaded = none) :
    (c.clock i).program.cells = c.program.cells := by
  cases hr : (c.requests i).programRead with
  | none => rw [clock_program_none h hi hr]
  | some addr => rw [clock_program_read h hi hr]

theorem clock_tape_cells (h : c.tape.Settled) (hw : (c.requests i).tapeWrite = none) :
    (c.clock i).tape.cells = c.tape.cells := by
  cases hr : (c.requests i).tapeRead with
  | none => rw [clock_tape_none h hw hr]
  | some addr => rw [clock_tape_read h hw hr]

/-- The memories look after themselves; what is left is what a step does to the
    registers. -/
theorem Tracks.of_clock (h : Tracks store c s) (hi : i.uploaded = none)
    (hshows : (c.clock i).Shows t) (hprepared : (c.clock i).Prepared store t) :
    Tracks store (c.clock i) t where
  program := by rw [clock_program_cells h.program_settled hi, h.program]
  program_settled := ⟨rfl, rfl⟩
  tape_settled := ⟨rfl, rfl⟩
  shows := hshows
  prepared := hprepared

/-- A step in which the address and the place on the tape stay. -/
theorem Shows.of_quiet (h : Tracks store c s) (hq : c.Quiet i)
    (hpc : (c.clock i).cpu.pc = c.cpu.pc) (hdp : (c.clock i).cpu.dp = c.cpu.dp) :
    (c.clock i).Shows s where
  pc := by rw [hpc, h.shows.pc]
  dp := by rw [hdp, h.shows.dp]
  cells := by rw [clock_tape_cells h.tape_settled hq.2, h.shows.cells]

section
variable (h : Tracks store c s) (hi : i.uploaded = none)
include h hi

/-- A quiet step leaves the state as it is. -/
theorem Tracks.of_quiet {cpu : Cpu} (hq : c.Quiet i) (hcpu : (c.clock i).cpu = cpu)
    (hpc : cpu.pc = c.cpu.pc) (hdp : cpu.dp = c.cpu.dp) (hprepared : (c.clock i).Prepared store s) :
    Tracks store (c.clock i) s ∧ (c.clock i).cpu.phase = cpu.phase ∧ c.Quiet i := by
  have hshows : (c.clock i).Shows s := .of_quiet h hq (by rw [hcpu, hpc]) (by rw [hcpu, hdp])
  exact ⟨h.of_clock hi hshows hprepared, by rw [hcpu], hq⟩

theorem Tracks.clock_fetch (hp : c.cpu.phase = .fetch) :
    Tracks store (c.clock i) s ∧ (c.clock i).cpu.phase = .waitFetch ∧ c.Quiet i := by
  have hcpu : (c.clock i).cpu = { c.cpu with phase := .waitFetch } := by
    simp [clock_cpu, cpuStep, Cpu.step, hp]
  have hread : (c.requests i).programRead = some c.cpu.pc := by simp [requests, cpuStep, Cpu.step, hp]
  have hq : c.Quiet i := by simp [Quiet, requests, cpuStep, Cpu.step, hp]
  have hout : (c.clock i).program.out = wordAt store s := by
    rw [clock_program_read h.program_settled hi hread]
    exact (Ram.peek_eq h.shows.pc).trans (by rw [h.program]; rfl)
  apply h.of_quiet hi hq hcpu rfl rfl
  simp [Prepared, hcpu, hout]

theorem Tracks.clock_waitFetch (hp : c.cpu.phase = .waitFetch) :
    Tracks store (c.clock i) s ∧ (c.clock i).cpu.phase = .decode ∧ c.Quiet i := by
  have hout : c.program.out = wordAt store s := by simpa [Prepared, hp] using h.prepared
  have hcpu : (c.clock i).cpu = { c.cpu with instr := wordAt store s, phase := .decode } := by
    simp [clock_cpu, cpuStep, cpuInputs, Cpu.step, hp, hout]
  have hq : c.Quiet i := by simp [Quiet, requests, cpuStep, Cpu.step, hp]
  apply h.of_quiet hi hq hcpu rfl rfl
  simp [Prepared, hcpu]

theorem Tracks.clock_decode (hp : c.cpu.phase = .decode) :
    Tracks store (c.clock i) s ∧ (c.clock i).cpu.phase = Cpu.decoded (wordAt store s) ∧ c.Quiet i := by
  have hinstr : c.cpu.instr = wordAt store s := by simpa [Prepared, hp] using h.prepared
  have hcpu : (c.clock i).cpu = { c.cpu with phase := Cpu.decoded (wordAt store s) } := by
    simp [clock_cpu, cpuStep, Cpu.step, hp, hinstr]
  have hq : c.Quiet i := by simp [Quiet, requests, cpuStep, Cpu.step, hp]
  apply h.of_quiet hi hq hcpu rfl rfl
  cases hhalt : (wordAt store s).isHalt
  · cases hreads : (wordAt store s).opcode.readsCell <;>
      simp [Prepared, hcpu, Cpu.decoded, hhalt, hreads, hinstr]
  · simp [Prepared, hcpu, Cpu.decoded, hhalt]

theorem Tracks.clock_readCell (hp : c.cpu.phase = .readCell) :
    Tracks store (c.clock i) s ∧ (c.clock i).cpu.phase = .waitCell ∧ c.Quiet i := by
  have hpre := h.prepared
  simp only [Prepared, hp] at hpre
  obtain ⟨hloaded, hreads⟩ := hpre
  have hcpu : (c.clock i).cpu = { c.cpu with phase := .waitCell } := by
    simp [clock_cpu, cpuStep, Cpu.step, hp]
  have hread : (c.requests i).tapeRead = some c.cpu.dp := by simp [requests, cpuStep, Cpu.step, hp]
  have hq : c.Quiet i := by simp [Quiet, requests, cpuStep, Cpu.step, hp]
  have hout : (c.clock i).tape.out = s.tape.current := by
    rw [clock_tape_read h.tape_settled hq.2 hread]
    exact h.shows.current
  apply h.of_quiet hi hq hcpu rfl rfl
  simp only [Prepared, hcpu]
  exact ⟨hloaded, hreads, hout⟩

theorem Tracks.clock_waitCell (hp : c.cpu.phase = .waitCell) :
    Tracks store (c.clock i) s ∧ (c.clock i).cpu.phase = .execute ∧ c.Quiet i := by
  have hpre := h.prepared
  simp only [Prepared, hp] at hpre
  obtain ⟨hloaded, -, hout⟩ := hpre
  have hcpu : (c.clock i).cpu = { c.cpu with cell := s.tape.current, phase := .execute } := by
    simp [clock_cpu, cpuStep, cpuInputs, Cpu.step, hp, hout]
  have hq : c.Quiet i := by simp [Quiet, requests, cpuStep, Cpu.step, hp]
  apply h.of_quiet hi hq hcpu rfl rfl
  simp only [Prepared, hcpu]
  exact ⟨hloaded, fun _ => trivial⟩

theorem Tracks.clock_writeCell (hp : c.cpu.phase = .writeCell) :
    Tracks store (c.clock i) s ∧ (c.clock i).cpu.phase = .fetch ∧ c.Quiet i := by
  have hcpu : (c.clock i).cpu = { c.cpu with phase := .fetch } := by
    simp [clock_cpu, cpuStep, Cpu.step, hp]
  have hq : c.Quiet i := by simp [Quiet, requests, cpuStep, Cpu.step, hp]
  apply h.of_quiet hi hq hcpu rfl rfl
  simp [Prepared, hcpu]

theorem Tracks.clock_halt (hp : c.cpu.phase = .halt) :
    Tracks store (c.clock i) s ∧ (c.clock i).cpu.phase = .halt ∧ c.Quiet i := by
  have hcpu : (c.clock i).cpu = c.cpu := by simp [clock_cpu, cpuStep, Cpu.step, hp]
  have hq : c.Quiet i := by simp [Quiet, requests, cpuStep, Cpu.step, hp]
  have hhalt := h.prepared
  simp only [Prepared, hp] at hhalt
  rw [← hp]
  apply h.of_quiet hi hq hcpu rfl rfl
  simp [Prepared, hcpu, hp, hhalt]

end

/-! ## The step that ends an instruction -/

/-- The phases in which an instruction does what it does. -/
def Executing (c : Core) : Prop :=
  c.cpu.phase = .execute ∨ c.cpu.phase = .waitSend ∨ c.cpu.phase = .waitReceive

theorem Tracks.effect_eq (h : Tracks store c s) (hp : c.Executing) :
    c.cpu.instr = wordAt store s ∧ (wordAt store s).isHalt = false := by
  have hpre := h.prepared
  rcases hp with hp | hp | hp <;> simp only [Prepared, hp] at hpre <;> exact hpre.1

/-- The registers after an instruction show the state after it. -/
theorem Shows.goOn (h : Tracks store c s) {offset : Int} {tape : Tape}
    (hpc : (c.clock i).cpu.pc = c.cpu.target offset programDepth)
    (hdp : (c.clock i).cpu.dp.toNat = tape.head.val) (hcells : (c.clock i).tape.cells = tape.cells) :
    (c.clock i).Shows (s.goOn offset tape) where
  pc := by rw [hpc]; exact h.shows.target offset
  dp := hdp
  cells := hcells

/-- Before a fetch nothing has to be prepared, and neither is it before a cell settles. -/
theorem Tracks.of_goOn (h : Tracks store c s) (hi : i.uploaded = none) (tape : Tape) {cpu : Cpu}
    {offset : Int} (hcpu : (c.clock i).cpu = cpu) (hpc : cpu.pc = c.cpu.target offset programDepth)
    (hdp : cpu.dp.toNat = tape.head.val) (hcells : (c.clock i).tape.cells = tape.cells)
    (hphase : cpu.phase = .fetch ∨ cpu.phase = .writeCell) :
    Tracks store (c.clock i) (s.goOn offset tape) ∧ (c.clock i).cpu.phase = cpu.phase := by
  have hshows : (c.clock i).Shows (s.goOn offset tape) :=
    .goOn h (by rw [hcpu, hpc]) (by rw [hcpu, hdp]) hcells
  refine ⟨h.of_clock hi hshows ?_, by rw [hcpu]⟩
  rcases hphase with hphase | hphase
  · simp [Prepared, hcpu, hphase]
  · simp [Prepared, hcpu, hphase]

theorem Tracks.clock_move (h : Tracks store c s) (hi : i.uploaded = none) {move : Int}
    (hstep : c.cpuStep i = c.cpu.move move programDepth tapeDepth) :
    Tracks store (c.clock i) (s.goOn 1 (s.tape.move move)) ∧ (c.clock i).cpu.phase = .fetch ∧
      c.Quiet i := by
  have hcpu : (c.clock i).cpu = (c.cpu.move move programDepth tapeDepth).1 := by rw [clock_cpu, hstep]
  have hq : c.Quiet i := by simp [Quiet, requests, hstep, Cpu.move]
  have hcells : (c.clock i).tape.cells = s.tape.cells := by
    rw [clock_tape_cells h.tape_settled hq.2, h.shows.cells]
  obtain ⟨ht, hphase⟩ := h.of_goOn hi (s.tape.move move) hcpu rfl (h.shows.moved move) hcells (.inl rfl)
  exact ⟨ht, hphase, hq⟩

theorem Tracks.clock_jump (h : Tracks store c s) (hi : i.uploaded = none) {taken : Bool}
    (hinstr : c.cpu.instr = wordAt store s) (hstep : c.cpuStep i = c.cpu.jump taken programDepth) :
    Tracks store (c.clock i) (s.goOn (if taken then (wordAt store s).signedArg else 1) s.tape) ∧
      (c.clock i).cpu.phase = .fetch ∧ c.Quiet i := by
  have hcpu : (c.clock i).cpu = (c.cpu.jump taken programDepth).1 := by rw [clock_cpu, hstep]
  have hq : c.Quiet i := by simp [Quiet, requests, hstep, Cpu.jump]
  have hcells : (c.clock i).tape.cells = s.tape.cells := by
    rw [clock_tape_cells h.tape_settled hq.2, h.shows.cells]
  rw [← hinstr]
  obtain ⟨ht, hphase⟩ := h.of_goOn hi s.tape hcpu rfl h.shows.dp hcells (.inl rfl)
  exact ⟨ht, hphase, hq⟩

/-- Cell changes and input end in the same way, with the byte in the cell. -/
theorem Tracks.clock_store (h : Tracks store c s) (hi : i.uploaded = none) {byte : UInt8}
    (hstep : c.cpuStep i = c.cpu.takeInput byte programDepth) :
    Tracks store (c.clock i) (s.goOn 1 (s.tape.write byte)) ∧ (c.clock i).cpu.phase = .writeCell ∧
      (c.requests i).send = none ∧ (c.requests i).tapeWrite = some (c.cpu.dp, byte) := by
  have hcpu : (c.clock i).cpu = (c.cpu.takeInput byte programDepth).1 := by rw [clock_cpu, hstep]
  have hreq : c.requests i = { tapeWrite := some (c.cpu.dp, byte) } := by
    simp [requests, hstep, Cpu.takeInput]
  have hcells : (c.clock i).tape.cells = (s.tape.write byte).cells := by
    rw [clock_tape_write h.tape_settled (by rw [hreq]) (by rw [hreq])]
    exact h.shows.written byte
  obtain ⟨ht, hphase⟩ := h.of_goOn hi (s.tape.write byte) hcpu rfl h.shows.dp hcells (.inr rfl)
  exact ⟨ht, hphase, by rw [hreq], by rw [hreq]⟩

/-- The byte to send may be kept in the same step in which it is sent. -/
theorem Tracks.clock_send (h : Tracks store c s) (hi : i.uploaded = none) {byte held : UInt8}
    (hstep : c.cpuStep i = Cpu.startOutput { c.cpu with held } byte programDepth) :
    Tracks store (c.clock i) (s.goOn 1 s.tape) ∧ (c.clock i).cpu.phase = .fetch ∧
      (c.requests i).send = some byte ∧ (c.requests i).tapeWrite = none := by
  have hcpu : (c.clock i).cpu = (Cpu.startOutput { c.cpu with held } byte programDepth).1 := by
    rw [clock_cpu, hstep]
  have hreq : c.requests i = { send := some byte } := by simp [requests, hstep, Cpu.startOutput]
  have hw : (c.requests i).tapeWrite = none := by rw [hreq]
  have hcells : (c.clock i).tape.cells = s.tape.cells := by
    rw [clock_tape_cells h.tape_settled hw, h.shows.cells]
  obtain ⟨ht, hphase⟩ := h.of_goOn hi s.tape hcpu rfl h.shows.dp hcells (.inl rfl)
  exact ⟨ht, hphase, by rw [hreq], hw⟩

/-- A step in which an instruction waits. -/
theorem Tracks.clock_wait (h : Tracks store c s) (hi : i.uploaded = none) {cpu : Cpu}
    (hstep : c.cpuStep i = (cpu, {})) (hpc : cpu.pc = c.cpu.pc) (hdp : cpu.dp = c.cpu.dp)
    (hprepared : (c.clock i).Prepared store s) : Tracks store (c.clock i) s ∧ c.Quiet i := by
  have hcpu : (c.clock i).cpu = cpu := by rw [clock_cpu, hstep]
  have hq : c.Quiet i := by simp [Quiet, requests, hstep]
  obtain ⟨ht, -, -⟩ := h.of_quiet hi hq hcpu hpc hdp hprepared
  exact ⟨ht, hq⟩

theorem Tracks.cell_eq (h : Tracks store c s) (hp : c.cpu.phase = .execute)
    (hreads : (wordAt store s).opcode.readsCell = true) : c.cpu.cell = s.tape.current := by
  have hpre := h.prepared
  simp only [Prepared, hp] at hpre
  exact hpre.2 hreads

theorem Tracks.clock_silent (h : Tracks store c s) (hi : i.uploaded = none)
    (hp : c.cpu.phase = .execute) (hs : Word.step store s = .silent t) :
    Tracks store (c.clock i) t ∧
      ((c.clock i).cpu.phase = .fetch ∨ (c.clock i).cpu.phase = .writeCell) ∧
      (c.requests i).send = none := by
  obtain ⟨hinstr, hhalt⟩ := h.effect_eq (.inl hp)
  rw [step_eq_effect, Word.effect, hhalt] at hs
  have hcell := h.cell_eq hp
  have hstep : c.cpuStep i = c.cpu.execute (c.cpuInputs i) programDepth tapeDepth := by
    simp [cpuStep, Cpu.step, hp]
  rw [Cpu.execute, hinstr] at hstep
  cases hop : (wordAt store s).opcode <;> rw [hop] at hs hstep hcell <;>
    simp only [Opcode.readsCell, Word.State.jump] at hs hcell
  case right | left =>
    cases hs
    obtain ⟨ht, hphase, hq⟩ := h.clock_move hi hstep
    exact ⟨ht, .inl hphase, hq.1⟩
  case add | sub =>
    cases hs
    obtain ⟨ht, hphase, hsend, _⟩ := h.clock_store hi hstep
    rw [hcell trivial] at ht
    exact ⟨ht, .inr hphase, hsend⟩
  case output | input => cases hs
  case jumpZero | jumpNonzero =>
    cases hs
    obtain ⟨ht, hphase, hq⟩ := h.clock_jump hi hinstr hstep
    rw [hcell trivial] at ht
    exact ⟨ht, .inl hphase, hq.1⟩

theorem step_halt (h : (wordAt store s).isHalt = true) : Word.step store s = .halt := by
  rw [step_eq_effect, Word.effect, if_pos h]

theorem isHalt_eq_false (h : Word.step store s ≠ .halt) : (wordAt store s).isHalt = false := by
  cases hhalt : (wordAt store s).isHalt
  · rfl
  · exact absurd (step_halt hhalt) h

theorem step_ne_halt (h : (wordAt store s).isHalt = false) : Word.step store s ≠ .halt := by
  rw [step_eq_effect, Word.effect, h]
  cases (wordAt store s).opcode <;> simp [Word.State.jump]

theorem step_output (h : (wordAt store s).isHalt = false) (hop : (wordAt store s).opcode = .output) :
    Word.step store s = .output s.tape.current (s.goOn 1 s.tape) := by
  rw [step_eq_effect, Word.effect, h, hop]
  rfl

theorem step_input (h : (wordAt store s).isHalt = false) (hop : (wordAt store s).opcode = .input) :
    Word.step store s = .input fun byte => s.goOn 1 (s.tape.write byte) := by
  rw [step_eq_effect, Word.effect, h, hop]
  rfl

/-- Only the command `.` sends. -/
theorem opcode_of_output {byte : UInt8} (hs : Word.step store s = .output byte t) :
    (wordAt store s).opcode = .output ∧ byte = s.tape.current ∧ t = s.goOn 1 s.tape := by
  rw [step_eq_effect, Word.effect] at hs
  split at hs
  · cases hs
  · cases hop : (wordAt store s).opcode <;> rw [hop] at hs <;> cases hs
    exact ⟨rfl, rfl, rfl⟩

/-- Only the command `,` takes a byte. -/
theorem opcode_of_input {next : UInt8 → Word.State} (hs : Word.step store s = .input next) :
    (wordAt store s).opcode = .input ∧ next = fun byte => s.goOn 1 (s.tape.write byte) := by
  rw [step_eq_effect, Word.effect] at hs
  split at hs
  · cases hs
  · cases hop : (wordAt store s).opcode <;> rw [hop] at hs <;> cases hs
    exact ⟨rfl, rfl⟩

/-- The byte is sent as soon as the transmitter is free, and kept until then. -/
theorem Tracks.clock_output (h : Tracks store c s) (hi : i.uploaded = none)
    (hp : c.cpu.phase = .execute ∨ c.cpu.phase = .waitSend) {byte : UInt8}
    (hs : Word.step store s = .output byte t) :
    if i.sending then Tracks store (c.clock i) s ∧ (c.clock i).cpu.phase = .waitSend ∧ c.Quiet i
    else Tracks store (c.clock i) t ∧ (c.clock i).cpu.phase = .fetch ∧
      (c.requests i).send = some byte ∧ (c.requests i).tapeWrite = none := by
  obtain ⟨hop, rfl, rfl⟩ := opcode_of_output hs
  -- The byte is the cell in the first step and what the processor holds in the later ones.
  obtain ⟨held, hheld, hstep⟩ : ∃ held, held = s.tape.current ∧ c.cpuStep i =
      if i.sending then ({ c.cpu with held, phase := .waitSend }, {})
      else Cpu.startOutput { c.cpu with held } s.tape.current programDepth := by
    rcases hp with hp | hp
    · obtain ⟨hinstr, -⟩ := h.effect_eq (.inl hp)
      have hcell := h.cell_eq hp (by rw [hop]; rfl)
      refine ⟨c.cpu.cell, hcell, ?_⟩
      simp only [cpuStep, Cpu.step, hp, Cpu.execute, hinstr, hop, hcell]
      rfl
    · have hpre := h.prepared
      simp only [Prepared, hp] at hpre
      have hsame : ({ c.cpu with held := c.cpu.held, phase := .waitSend } : Cpu) = c.cpu :=
        Cpu.with_phase hp
      refine ⟨c.cpu.held, hpre.2.2, ?_⟩
      rw [hsame, ← hpre.2.2]
      simp only [cpuStep, Cpu.step, hp]
      rfl
  cases hsending : i.sending
  · simp only [hsending, Bool.false_eq_true, if_false] at hstep ⊢
    exact h.clock_send hi hstep
  · simp only [hsending, if_true] at hstep ⊢
    have hcpu : (c.clock i).cpu = { c.cpu with held, phase := .waitSend } := by rw [clock_cpu, hstep]
    have hloaded : c.cpu.instr = wordAt store s ∧ (wordAt store s).isHalt = false :=
      h.effect_eq (hp.imp_right .inl)
    have hprepared : (c.clock i).Prepared store s := by
      simp only [Prepared, hcpu]
      exact ⟨hloaded, hop, hheld⟩
    obtain ⟨ht, hq⟩ := h.clock_wait hi hstep rfl rfl hprepared
    exact ⟨ht, by rw [hcpu], hq⟩

/-- The byte is taken in the step in which it arrives. -/
theorem Tracks.clock_input (h : Tracks store c s) (hi : i.uploaded = none)
    (hp : c.cpu.phase = .execute ∨ c.cpu.phase = .waitReceive) {next : UInt8 → Word.State}
    (hs : Word.step store s = .input next) :
    match i.received with
    | none => Tracks store (c.clock i) s ∧ (c.clock i).cpu.phase = .waitReceive ∧ c.Quiet i
    | some byte => Tracks store (c.clock i) (next byte) ∧ (c.clock i).cpu.phase = .writeCell ∧
      (c.requests i).send = none ∧ (c.requests i).tapeWrite = some (c.cpu.dp, byte) := by
  obtain ⟨hop, rfl⟩ := opcode_of_input hs
  have hloaded : c.cpu.instr = wordAt store s ∧ (wordAt store s).isHalt = false :=
    h.effect_eq (hp.imp_right .inr)
  cases hr : i.received with
  | none =>
    have hstep : c.cpuStep i = ({ c.cpu with phase := .waitReceive }, {}) := by
      rcases hp with hp | hp
      · simp [cpuStep, Cpu.step, hp, Cpu.execute, hloaded.1, hop, cpuInputs, hr]
      · rw [Cpu.with_phase hp]
        simp [cpuStep, Cpu.step, hp, cpuInputs, hr]
    have hcpu : (c.clock i).cpu = { c.cpu with phase := .waitReceive } := by rw [clock_cpu, hstep]
    have hprepared : (c.clock i).Prepared store s := by
      simp only [Prepared, hcpu]
      exact ⟨hloaded, hop⟩
    obtain ⟨ht, hq⟩ := h.clock_wait hi hstep rfl rfl hprepared
    exact ⟨ht, by rw [hcpu], hq⟩
  | some byte =>
    have hstep : c.cpuStep i = c.cpu.takeInput byte programDepth := by
      rcases hp with hp | hp
      · simp [cpuStep, Cpu.step, hp, Cpu.execute, hloaded.1, hop, cpuInputs, hr]
      · simp [cpuStep, Cpu.step, hp, cpuInputs, hr]
    exact h.clock_store hi hstep

theorem Tracks.step_of_waitReceive (h : Tracks store c s) (hp : c.cpu.phase = .waitReceive) :
    ∃ next, Word.step store s = .input next := by
  have hpre := h.prepared
  simp only [Prepared, hp] at hpre
  exact ⟨_, step_input hpre.1.2 hpre.2⟩

/-! ## Any step -/

/-- How far the phase is from the end of the instruction, but for the waits. -/
def rank : Cpu.Phase → Nat
  | .writeCell => 7
  | .fetch => 6
  | .waitFetch => 5
  | .decode => 4
  | .readCell => 3
  | .waitCell => 2
  | .execute => 1
  | .idle | .waitSend | .waitReceive | .halt => 0

/-- A step within an instruction comes closer to its end, or waits for a reason. -/
def Proceeds (c : Core) (i : Inputs) : Prop :=
  match c.cpu.phase with
  | .waitSend => (c.clock i).cpu.phase = .waitSend ∧ i.sending = true
  | .waitReceive => (c.clock i).cpu.phase = .waitReceive ∧ i.received = none
  | .halt => (c.clock i).cpu.phase = .halt
  | phase => rank (c.clock i).cpu.phase < rank phase

theorem rank_le (phase : Cpu.Phase) : rank phase ≤ 7 := by
  cases phase <;> decide

/-- A step within an instruction gets on, unless it is a wait. -/
theorem Tracks.proceeds (h : Tracks store c s) (hp : c.Proceeds i) :
    rank (c.clock i).cpu.phase < rank c.cpu.phase ∨
    ((c.clock i).cpu.phase = .waitSend ∧ i.sending = true ∧ ∃ byte t, Word.step store s = .output byte t) ∨
    ((c.clock i).cpu.phase = .waitReceive ∧ i.received = none ∧ ∃ next, Word.step store s = .input next) ∨
    Word.step store s = .halt := by
  have hpre := h.prepared
  cases hphase : c.cpu.phase with
  | waitSend =>
    simp only [Proceeds, hphase] at hp
    simp only [Prepared, hphase] at hpre
    exact .inr (.inl ⟨hp.1, hp.2, _, _, step_output hpre.1.2 hpre.2.1⟩)
  | waitReceive =>
    simp only [Proceeds, hphase] at hp
    exact .inr (.inr (.inl ⟨hp.1, hp.2, h.step_of_waitReceive hphase⟩))
  | halt =>
    simp only [Prepared, hphase] at hpre
    exact .inr (.inr (.inr (step_halt hpre)))
  | _ =>
    simp only [Proceeds, hphase] at hp
    exact .inl hp

/-- What a step does to the state that is tracked, and what it exchanges: nothing, or
    one instruction. -/
inductive Moves (store : Vector Word 32) (c : Core) (i : Inputs) (s : Word.State) :
    List Exchange → Word.State → Prop
  | within : c.Quiet i → c.Proceeds i → Moves store c i s [] s
  | silent {t : Word.State} : Word.step store s = .silent t → (c.requests i).send = none →
      Moves store c i s [] t
  | output {byte : UInt8} {t : Word.State} : Word.step store s = .output byte t →
      i.sending = false → (c.requests i).send = some byte → Moves store c i s [.sent byte] t
  | input {byte : UInt8} {next : UInt8 → Word.State} : Word.step store s = .input next →
      i.received = some byte → (c.requests i).send = none →
      Moves store c i s [.received byte] (next byte)

theorem Moves.within_or_step {seen : List Exchange} (h : Moves store c i s seen t) :
    (seen = [] ∧ t = s ∧ c.Proceeds i) ∨ OneStep (Word.step store) s seen t := by
  cases h with
  | within _ hp => exact .inl ⟨rfl, rfl, hp⟩
  | silent hs => exact .inr (.silent hs)
  | output hs => exact .inr (.output hs)
  | input hs => exact .inr (.input hs)

theorem Moves.run {seen : List Exchange} (h : Moves store c i s seen t) :
    Run (Word.step store) s seen t := by
  rcases h.within_or_step with ⟨rfl, rfl, -⟩ | hone
  · exact .here t
  · exact hone.run

/-- What a step hands to the transmitter is what it exchanges. -/
theorem Moves.sent {seen : List Exchange} (h : Moves store c i s seen t) :
    ((c.requests i).send).toList = sentBytes seen ∧
      ((c.requests i).send ≠ none → i.sending = false) := by
  cases h with
  | within hq => rw [hq.1]; exact ⟨rfl, fun h => absurd rfl h⟩
  | silent _ hsend => rw [hsend]; exact ⟨rfl, fun h => absurd rfl h⟩
  | output _ hfree hsend => rw [hsend]; exact ⟨rfl, fun _ => hfree⟩
  | input _ _ hsend => rw [hsend]; exact ⟨rfl, fun h => absurd rfl h⟩

/-- A byte that arrives while the program waits for one is what the step exchanges. -/
theorem Moves.received {seen : List Exchange} (h : Moves store c i s seen t) (ht : Tracks store c s)
    (hwaits : i.received ≠ none → c.cpu.phase = .waitReceive) : receivedBytes seen = i.received.toList := by
  cases hr : i.received with
  | none =>
    cases h with
    | input _ hr' =>
      rw [hr] at hr'
      cases hr'
    | _ => rfl
  | some byte =>
    have hphase := hwaits (by rw [hr]; exact nofun)
    obtain ⟨next, hs⟩ := ht.step_of_waitReceive hphase
    cases h with
    | within _ hp =>
      simp only [Proceeds, hphase, hr] at hp
      exact absurd hp.2 nofun
    | silent hs' => rw [hs] at hs'; cases hs'
    | output hs' => rw [hs] at hs'; cases hs'
    | input _ hr' =>
      rw [hr] at hr'
      cases hr'
      rfl

/-- A byte that arrives while the program waits for one is taken (`Proceeds`). -/
theorem Tracks.clock (h : Tracks store c s) (hi : i.uploaded = none) :
    ∃ seen t, Moves store c i s seen t ∧ Tracks store (c.clock i) t := by
  have stay {phase : Cpu.Phase}
      (hc : Tracks store (c.clock i) s ∧ (c.clock i).cpu.phase = phase ∧ c.Quiet i)
      (hp : c.Proceeds i) : ∃ seen t, Moves store c i s seen t ∧ Tracks store (c.clock i) t :=
    ⟨[], s, .within hc.2.2 hp, hc.1⟩
  have send (hp : c.cpu.phase = .execute ∨ c.cpu.phase = .waitSend) {byte : UInt8} {t : Word.State}
      (hs : Word.step store s = .output byte t) :
      ∃ seen t, Moves store c i s seen t ∧ Tracks store (c.clock i) t := by
    have hout := h.clock_output hi hp hs
    split at hout
    · next hsending =>
      apply stay hout
      rcases hp with hp | hp <;> simp [Proceeds, hp, hout.2.1, hsending, rank]
    · next hsending =>
      exact ⟨_, t, .output hs (by simpa using hsending) hout.2.2.1, hout.1⟩
  have receive (hp : c.cpu.phase = .execute ∨ c.cpu.phase = .waitReceive)
      {next : UInt8 → Word.State} (hs : Word.step store s = .input next) :
      ∃ seen t, Moves store c i s seen t ∧ Tracks store (c.clock i) t := by
    have hin := h.clock_input hi hp hs
    cases hr : i.received with
    | none =>
      rw [hr] at hin
      apply stay hin
      rcases hp with hp | hp <;> simp [Proceeds, hp, hin.2.1, hr, rank]
    | some byte =>
      rw [hr] at hin
      exact ⟨_, next byte, .input hs hr hin.2.2.1, hin.1⟩
  -- Only the last step of an instruction moves the state; a wait is within it.
  have hpre := h.prepared
  cases hp : c.cpu.phase <;> simp only [Prepared, hp] at hpre
  case fetch =>
    have hc := h.clock_fetch hi hp
    exact stay hc (by simp [Proceeds, hp, hc.2.1, rank])
  case waitFetch =>
    have hc := h.clock_waitFetch hi hp
    exact stay hc (by simp [Proceeds, hp, hc.2.1, rank])
  case decode =>
    have hc := h.clock_decode hi hp
    apply stay hc
    simp only [Proceeds, hp, hc.2.1, Cpu.decoded]
    split
    · decide
    · split <;> decide
  case readCell =>
    have hc := h.clock_readCell hi hp
    exact stay hc (by simp [Proceeds, hp, hc.2.1, rank])
  case waitCell =>
    have hc := h.clock_waitCell hi hp
    exact stay hc (by simp [Proceeds, hp, hc.2.1, rank])
  case writeCell =>
    have hc := h.clock_writeCell hi hp
    exact stay hc (by simp [Proceeds, hp, hc.2.1, rank])
  case halt =>
    have hc := h.clock_halt hi hp
    exact stay hc (by simp [Proceeds, hp, hc.2.1])
  case execute =>
    cases hs : Word.step store s with
    | halt => exact absurd hs (step_ne_halt hpre.1.2)
    | silent t =>
      obtain ⟨ht, -, hsend⟩ := h.clock_silent hi hp hs
      exact ⟨_, t, .silent hs hsend, ht⟩
    | output byte t => exact send (.inl hp) hs
    | input next => exact receive (.inl hp) hs
  case waitSend => exact send (.inr hp) (step_output hpre.1.2 hpre.2.1)
  case waitReceive => exact receive (.inr hp) (step_input hpre.1.2 hpre.2)

end Core

end BrainfuckBoard
