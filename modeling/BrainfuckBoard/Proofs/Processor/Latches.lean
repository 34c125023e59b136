import BrainfuckBoard.Proofs.Processor.Tracking

/- What the registers of the processor hold, whatever words the store puts out and
   whatever arrives. The two addresses stay on their rings (`Cpu.OnRings`), and a phase finds
   the registers that it relies on as the phases before it left them: the cell that was
   read, the byte that waits to be sent, the word for which the processor waits or has
   halted (`Latched`). Both are kept by every step (`Coherent.clock`). -/
namespace BrainfuckBoard

theorem ringMove_lt {size : Nat} (h₀ : 0 < size) (h : size ≤ 256) (position : Nat) (move : Int) :
    (ringMove position move size).toNat < size := by
  have hlt := Int.emod_lt_of_pos ((position : Int) + move) (show 0 < (size : Int) by omega)
  have hplace : (((position : Int) + move) % size).toNat < size := by omega
  rw [ringMove, UInt8.toNat_ofNat', Nat.mod_eq_of_lt (by omega)]
  exact hplace

namespace Cpu

/-- The addresses are places of the store and of the tape. -/
structure OnRings (c : Cpu) (programDepth tapeDepth : Nat) : Prop where
  pc : c.pc.toNat < programDepth
  dp : c.dp.toNat < tapeDepth

section
variable {c : Cpu} {i : Inputs} {programDepth tapeDepth : Nat} (h : c.OnRings programDepth tapeDepth)
  (hprogram : programDepth ≤ 256) (htape : tapeDepth ≤ 256)
include h hprogram htape

theorem OnRings.execute : (c.execute i programDepth tapeDepth).1.OnRings programDepth tapeDepth := by
  have htarget : ∀ move, (c.target move programDepth).toNat < programDepth :=
    ringMove_lt (Nat.zero_lt_of_lt h.pc) hprogram _
  have hmoved : ∀ move, (ringMove c.dp.toNat move tapeDepth).toNat < tapeDepth :=
    ringMove_lt (Nat.zero_lt_of_lt h.dp) htape _
  unfold Cpu.execute
  split
  case h_1 => exact ⟨htarget 1, hmoved _⟩
  case h_2 => exact ⟨htarget 1, hmoved _⟩
  case h_5 =>
    dsimp only
    split
    · exact ⟨h.pc, h.dp⟩
    · exact ⟨htarget 1, h.dp⟩
  case h_6 =>
    split
    · exact ⟨htarget 1, h.dp⟩
    · exact ⟨h.pc, h.dp⟩
  all_goals exact ⟨htarget _, h.dp⟩

theorem OnRings.step : (c.step i programDepth tapeDepth).1.OnRings programDepth tapeDepth := by
  have hnext : (c.target 1 programDepth).toNat < programDepth :=
    ringMove_lt (Nat.zero_lt_of_lt h.pc) hprogram _ 1
  unfold Cpu.step
  split
  case h_1 =>
    split
    · exact ⟨Nat.zero_lt_of_lt h.pc, h.dp⟩
    · exact h
  case h_7 => exact h.execute hprogram htape
  case h_9 =>
    split
    · exact h
    · exact ⟨hnext, h.dp⟩
  case h_10 =>
    split
    · exact ⟨hnext, h.dp⟩
    · exact h
  case h_11 => exact h
  all_goals exact ⟨h.pc, h.dp⟩

end

end Cpu

namespace Core

/-- What a phase relies on. -/
def Latched (c : Core) : Cpu.Phase → Prop
  | .waitCell => c.tape.out = c.tape.peek c.cpu.dp.toNat
  | .execute => c.cpu.instr.opcode.readsCell = true → c.cpu.cell = c.tape.peek c.cpu.dp.toNat
  | .waitSend => c.cpu.instr.opcode = .output ∧ c.cpu.held = c.tape.peek c.cpu.dp.toNat
  | .waitReceive => c.cpu.instr.opcode = .input
  | .halt => c.cpu.instr = Word.halt
  | .idle | .fetch | .waitFetch | .decode | .readCell | .writeCell => True

structure Coherent (c : Core) : Prop where
  rings : c.cpu.OnRings programDepth tapeDepth
  settled : c.tape.Settled
  latched : c.Latched c.cpu.phase

section
variable {c : Core} {i : Inputs}

theorem coherent_initial : initial.Coherent := ⟨⟨by decide, by decide⟩, ⟨rfl, rfl⟩, trivial⟩

/-- In these phases nothing is promised. -/
theorem latched_of_phase (h : c.cpu.phase = .idle ∨ c.cpu.phase = .fetch ∨ c.cpu.phase = .writeCell) :
    c.Latched c.cpu.phase := by
  rcases h with h | h | h <;> simp [Latched, h]

/-- A step without a request leaves the tape alone. -/
theorem clock_tape_of_none (h : c.tape.Settled) {cpu : Cpu} (hstep : c.cpuStep i = (cpu, {})) :
    (c.clock i).tape = c.tape :=
  clock_tape_none h (by rw [requests, hstep]) (by rw [requests, hstep])

theorem clock_cpu_of_step {cpu : Cpu} {asked : Cpu.Requests} (hstep : c.cpuStep i = (cpu, asked)) :
    (c.clock i).cpu = cpu := by
  rw [clock_cpu, hstep]

theorem Coherent.latched_execute (h : c.Coherent) (hp : c.cpu.phase = .execute) :
    (c.clock i).Latched (c.clock i).cpu.phase := by
  have hcell := h.latched
  simp only [Latched, hp] at hcell
  have hstep : c.cpuStep i = c.cpu.execute (c.cpuInputs i) programDepth tapeDepth := by
    simp [cpuStep, Cpu.step, hp]
  rw [Cpu.execute] at hstep
  -- An instruction that does not wait is over, and the next phase relies on nothing.
  have hends : (c.clock i).cpu.phase = .fetch ∨ (c.clock i).cpu.phase = .writeCell →
      (c.clock i).Latched (c.clock i).cpu.phase :=
    fun h => latched_of_phase (.inr h)
  cases hop : c.cpu.instr.opcode <;> rw [hop] at hstep hcell
  case output =>
    dsimp only at hstep
    split at hstep
    · have htape := clock_tape_of_none h.settled hstep
      simp only [Latched, clock_cpu_of_step hstep, htape]
      exact ⟨hop, hcell rfl⟩
    · exact hends (.inl (by rw [clock_cpu, hstep]; rfl))
  case input =>
    dsimp only at hstep
    split at hstep
    · exact hends (.inr (by rw [clock_cpu, hstep]; rfl))
    · simp only [Latched, clock_cpu_of_step hstep]
      exact hop
  case add => exact hends (.inr (by rw [clock_cpu, hstep]; rfl))
  case sub => exact hends (.inr (by rw [clock_cpu, hstep]; rfl))
  all_goals exact hends (.inl (by rw [clock_cpu, hstep]; rfl))

/-- A step in which nothing happens. -/
theorem Coherent.latched_stay (h : c.Coherent) (hstep : c.cpuStep i = (c.cpu, {})) :
    (c.clock i).Latched (c.clock i).cpu.phase := by
  simp only [Latched, clock_cpu_of_step hstep, clock_tape_of_none h.settled hstep]
  exact h.latched

theorem Coherent.latched_clock (h : c.Coherent) : (c.clock i).Latched (c.clock i).cpu.phase := by
  have hlatched := h.latched
  cases hp : c.cpu.phase <;> simp only [Latched, hp] at hlatched
  case idle =>
    have hcpu : (c.clock i).cpu.phase = .idle ∨ (c.clock i).cpu.phase = .fetch := by
      cases hrun : i.runStart <;> simp [clock_cpu, cpuStep, cpuInputs, Cpu.step, hp, hrun]
    exact latched_of_phase (hcpu.imp_right .inl)
  case fetch => simp [Latched, clock_cpu, cpuStep, Cpu.step, hp]
  case waitFetch => simp [Latched, clock_cpu, cpuStep, Cpu.step, hp]
  case decode =>
    have hcpu : (c.clock i).cpu = { c.cpu with phase := Cpu.decoded c.cpu.instr } := by
      simp [clock_cpu, cpuStep, Cpu.step, hp]
    cases hhalt : c.cpu.instr.isHalt
    · cases hreads : c.cpu.instr.opcode.readsCell <;>
        simp [Latched, hcpu, Cpu.decoded, hhalt, hreads]
    · have hzero : c.cpu.instr = Word.halt := by simpa [Word.isHalt] using hhalt
      simpa [Latched, hcpu, Cpu.decoded, hhalt] using hzero
  case readCell =>
    have hcpu : (c.clock i).cpu = { c.cpu with phase := .waitCell } := by
      simp [clock_cpu, cpuStep, Cpu.step, hp]
    have hread : (c.clock i).tape = { c.tape with out := c.tape.peek c.cpu.dp.toNat } :=
      clock_tape_read h.settled (by simp [requests, cpuStep, Cpu.step, hp])
        (by simp [requests, cpuStep, Cpu.step, hp])
    simp only [Latched, hcpu, hread]
    rfl
  case waitCell =>
    have hstep : c.cpuStep i = ({ c.cpu with cell := c.tape.out, phase := .execute }, {}) := by
      simp [cpuStep, cpuInputs, Cpu.step, hp]
    simp only [Latched, clock_cpu_of_step hstep, clock_tape_of_none h.settled hstep]
    exact fun _ => hlatched
  case execute => exact h.latched_execute hp
  case writeCell =>
    exact latched_of_phase (.inr (.inl (by simp [clock_cpu, cpuStep, Cpu.step, hp])))
  case waitSend =>
    cases hsending : i.sending
    · exact latched_of_phase (.inr (.inl (by
        simp [clock_cpu, cpuStep, cpuInputs, Cpu.step, Cpu.startOutput, hp, hsending])))
    · exact h.latched_stay (by simp [cpuStep, cpuInputs, Cpu.step, hp, hsending])
  case waitReceive =>
    cases hreceived : i.received
    · exact h.latched_stay (by simp [cpuStep, cpuInputs, Cpu.step, hp, hreceived])
    · exact latched_of_phase (.inr (.inr (by
        simp [clock_cpu, cpuStep, cpuInputs, Cpu.step, Cpu.takeInput, hp, hreceived])))
  case halt => exact h.latched_stay (by simp [cpuStep, Cpu.step, hp])

/-- Nothing but the processor and the tape matters. -/
theorem Coherent.of_eq {c' : Core} (h : c.Coherent) (hcpu : c'.cpu = c.cpu) (htape : c'.tape = c.tape) :
    c'.Coherent where
  rings := hcpu ▸ h.rings
  settled := htape ▸ h.settled
  latched := by
    obtain ⟨cpu, program, tape⟩ := c'
    obtain rfl : cpu = c.cpu := hcpu
    obtain rfl : tape = c.tape := htape
    exact h.latched

theorem Coherent.clock (h : c.Coherent) (i : Inputs) : (c.clock i).Coherent where
  rings := h.rings.step (by decide) (by decide)
  settled := ⟨rfl, rfl⟩
  latched := h.latched_clock

end

end Core

end BrainfuckBoard
