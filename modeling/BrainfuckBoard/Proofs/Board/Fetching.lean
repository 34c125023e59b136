import BrainfuckBoard.Proofs.Board.Protection
import BrainfuckBoard.Proofs.Board.Replay

/- What the timeline tells of a fetch. The processor is given the word as it is after the
   clock edge (`Core.clock_program_out`), and the frame shows the word as it was before. The
   two are the same unless the loader writes the very word that is being fetched
   (`Following.step_peek`), in an upload to a program that is running. In that step the frame
   shows a word that nobody gets (`stale_fetch`), and in all others it can be believed
   (`fetched_of_noted`). -/
namespace BrainfuckBoard

namespace Cpu

section
variable {c : Cpu} {i : Inputs} {programDepth tapeDepth : Nat} {addr : UInt8}

theorem execute_fetch : (c.execute i programDepth tapeDepth).2.programRead = none := by
  unfold execute
  split
  case h_5 =>
    dsimp only
    split <;> rfl
  case h_6 => split <;> rfl
  all_goals rfl

/-- Only the next word is fetched, and only in one phase. -/
theorem step_fetch (h : (c.step i programDepth tapeDepth).2.programRead = some addr) :
    c.phase = .fetch ∧ addr = c.pc := by
  unfold step at h
  split at h
  case h_1 => split at h <;> exact absurd h nofun
  case h_2 hp => exact ⟨hp, (Option.some.inj h).symm⟩
  case h_7 =>
    rw [execute_fetch] at h
    exact absurd h nofun
  case h_9 => split at h <;> exact absurd h nofun
  case h_10 => split at h <;> exact absurd h nofun
  all_goals exact absurd h nofun

end

end Cpu

namespace Core

section
variable {c : Core} {i : Inputs} {addr : UInt8}

/-- A read finds what the store holds after the clock edge. -/
theorem clock_program_out (h : (c.requests i).programRead = some addr) :
    (c.clock i).program.out = (c.clock i).program.peek addr.toNat := by
  simp only [clock, programAsked, h]
  cases i.uploaded <;> rfl

end

end Core

namespace Board

section
variable {b : Board} {frame : TraceFrame} {event : BusEvent} {ops : List Operation}

/-! ## The frame of a step -/

theorem frame_of_last (h : frame ∈ b.step.timeline.last 1) :
    frame = b.traceFrame b.inReset b.step.chip := by
  have hstep : b.step.timeline = b.timeline.record (b.traceFrame b.inReset b.step.chip) := rfl
  rw [hstep] at h
  rcases Nat.eq_zero_or_pos b.timeline.limit with hzero | hpos
  · simp [Timeline.record, hzero, Timeline.last] at h
  · rw [Timeline.last_record _ _ hpos] at h
    simpa [Timeline.last] using h

/-- A step that is spent in reset has no events. -/
theorem run_of_noted {p : BusAction → Bool} {chip : Chip}
    (h : event ∈ (b.traceFrame b.inReset chip).noted p) : b.inReset = false := by
  cases hreset : b.inReset with
  | false => rfl
  | true => simp [TraceFrame.noted, traceFrame, events, hreset] at h

theorem fetch_of_noted {chip : Chip}
    (h : event ∈ (b.traceFrame false chip).noted (BusAction.on .program .read)) :
    b.cpu.phase = .fetch ∧
      event.action = .fetch b.cpu.pc (b.chip.core.program.peek b.cpu.pc.toNat) ∧
      (b.chip.core.requests (b.chip.coreInputs b.drivenPins)).programRead = some b.cpu.pc := by
  rw [noted_traceFrame, Chip.filter_actions, Chip.carried] at h
  cases hr : (b.chip.core.requests (b.chip.coreInputs b.drivenPins)).programRead with
  | none => simp [hr] at h
  | some addr =>
    obtain ⟨hphase, rfl⟩ := Cpu.step_fetch hr
    simp only [hr, Option.toList_some, List.map_cons, List.map_nil, List.mem_singleton] at h
    exact ⟨hphase, by rw [h]; rfl, rfl⟩

/-! ## The word that is fetched -/

/-- The word at the next instruction after a step. -/
theorem Following.step_peek (h : b.Following) (hs : b.chip.Steady) (hrun : b.inReset = false) :
    b.step.chip.core.program.peek b.cpu.pc.toNat =
      if b.chip.loader.phase = .write ∧ b.chip.loader.addr = b.cpu.pc then b.chip.loader.data
      else b.chip.core.program.peek b.cpu.pc.toNat := by
  have hpc : b.cpu.pc.toNat < programDepth := hs.rings.pc
  have hmod : b.chip.loader.addr.toNat % programDepth = b.chip.loader.addr.toNat :=
    Nat.mod_eq_of_lt hs.addr
  by_cases hp : b.chip.loader.phase = .write
  · have hcells : b.step.chip.core.program.cells =
        Core.deposit b.chip.core.program.cells (b.chip.loader.addr, b.chip.loader.data) := by
      rw [h.step_cells hrun, Loader.written_of_write hp]
      rfl
    simp [@Ram.peek_eq _ _ b.cpu.pc.toNat ⟨b.cpu.pc.toNat, hpc⟩ rfl, hcells, Core.deposit,
      Vector.getElem_set, hmod, hp, UInt8.toNat_inj]
  · have hcells := h.step_cells_kept hrun hp
    rw [if_neg fun hwrite => hp hwrite.1]
    simp only [@Ram.peek_eq _ _ b.cpu.pc.toNat ⟨b.cpu.pc.toNat, hpc⟩ rfl, hcells]

theorem cpu_after (h : ∀ op ∈ ops, op.live = true) : (b.after ops).cpu = b.cpu := by
  induction ops generalizing b with
  | nil => rfl
  | cons op ops ih =>
    obtain ⟨hop, hops⟩ := List.forall_mem_cons.mp h
    exact (ih hops).trans (op.core_spared hop).1

/-- The step after a fetch keeps the word that the store puts out. -/
theorem instr_of_waitFetch (hp : b.cpu.phase = .waitFetch) (hrun : b.inReset = false) :
    b.step.cpu.instr = b.chip.core.program.out := by
  have hphase : b.chip.core.cpu.phase = .waitFetch := hp
  change b.step.chip.core.cpu.instr = _
  rw [step_chip_of_run hrun]
  simp [Chip.clock, Core.clock_cpu, Core.cpuStep, Cpu.step, hphase, Core.cpuInputs]

/-- What an event of a fetch says, and what is fetched. -/
structure Fetched (b : Board) (a : BusAction) : Prop where
  fetch : a = .fetch b.cpu.pc (b.chip.core.program.peek b.cpu.pc.toNat)
  agrees : ¬(b.chip.loader.phase = .write ∧ b.chip.loader.addr = b.cpu.pc) →
    b.step.chip.core.program.out = a.data
  overtaken : b.chip.loader.phase = .write ∧ b.chip.loader.addr = b.cpu.pc →
    b.step.chip.core.program.out = b.chip.loader.data
  latched : ∀ ops, (∀ op ∈ ops, op.live = true ∧ op.sparesProgram = true) →
    (b.step.after ops).inReset = false →
    (b.step.after ops).step.cpu.instr = b.step.chip.core.program.out

/-- Whatever the board is doing, and whatever is done to its pins before the next step. -/
theorem fetched_of_noted (h : b.Reachable) (hframe : frame ∈ b.step.timeline.last 1)
    (hevent : event ∈ frame.noted (BusAction.on .program .read)) : b.Fetched event.action := by
  rw [frame_of_last hframe] at hevent
  have hrun := run_of_noted hevent
  rw [hrun] at hevent
  obtain ⟨hphase, hfetch, hread⟩ := fetch_of_noted hevent
  have hout : b.step.chip.core.program.out = b.step.chip.core.program.peek b.cpu.pc.toNat := by
    rw [step_chip_of_run hrun]
    exact Core.clock_program_out hread
  rw [h.following.step_peek h.steady hrun] at hout
  refine ⟨hfetch, fun hfree => ?_, fun hwrite => ?_, fun ops hops hnext => ?_⟩
  · rw [hout, if_neg hfree, hfetch]
    rfl
  · rw [hout, if_pos hwrite]
  · have hlive : ∀ op ∈ ops, op.live = true := fun op hop => (hops op hop).1
    have hwait : (b.step.after ops).cpu.phase = .waitFetch := by
      have hstep : b.step.chip.core.cpu.phase = .waitFetch := by
        have hp : b.chip.core.cpu.phase = .fetch := hphase
        rw [step_chip_of_run hrun]
        simp [Chip.clock, Core.clock_cpu, Core.cpuStep, Cpu.step, hp]
      rw [cpu_after hlive]
      exact hstep
    rw [instr_of_waitFetch hwait hnext, program_after hlive fun op hop => (hops op hop).2]

/-! ## An upload to a program that is running -/

/-- At sixteen steps to a bit: the program is a jump to itself, and has run for `n` steps when
    bytes are sent to the loader. A turn of the loop takes six steps. -/
def overwritten (n : Nat) (bytes : Bytes) (m : Nat) : Board :=
  (ofConfig ⟨1843200, 115200, 10⟩).after [.loadProgram [192], .pulseRunStart, .step n,
    .setPin .upload true, .send bytes, .step m]

theorem overwritten_reachable (n : Nat) (bytes : Bytes) (m : Nat) : (overwritten n bytes m).Reachable :=
  (Reachable.start _).after _

/-- The loader writes the word after the one that is fetched. -/
theorem fetched_of_noted_upload :
    let b := overwritten 5 [192, 255] 332
    let frame := b.traceFrame b.inReset b.step.chip
    let event : BusEvent := ⟨337, .fetch, .fetch 0 192⟩
    (b.Reachable ∧ frame ∈ b.step.timeline.last 1 ∧ event ∈ frame.noted (BusAction.on .program .read)) ∧
      (b.chip.loader.phase = .write ∧ b.chip.loader.addr = 1) ∧ b.Fetched event.action ∧
      b.step.chip.core.program.out = event.action.data := by
  intro b frame event
  have hb : b.Reachable := overwritten_reachable _ _ _
  have hframe : frame ∈ b.step.timeline.last 1 := by decide +kernel
  have hevent : event ∈ frame.noted (BusAction.on .program .read) := by decide +kernel
  have hfetched : b.Fetched event.action := fetched_of_noted hb hframe hevent
  have hother : b.chip.loader.phase = .write ∧ b.chip.loader.addr = 1 := by decide +kernel
  have hpc : b.cpu.pc = 0 := by decide +kernel
  refine ⟨⟨hb, hframe, hevent⟩, hother, hfetched, hfetched.agrees ?_⟩
  rintro ⟨-, haddr⟩
  exact absurd (hother.2.symm.trans (haddr.trans hpc)) (by decide)

/-- The loader writes the word that is fetched: the frame shows the jump, and the processor goes on
    with 255. -/
theorem stale_fetch :
    let b := overwritten 1 [255] 156
    let frame := b.traceFrame b.inReset b.step.chip
    let event : BusEvent := ⟨157, .fetch, .fetch 0 192⟩
    (b.Reachable ∧ 0 < b.config.traceLimit) ∧
      (frame ∈ b.step.timeline.last 1 ∧ event ∈ frame.noted (BusAction.on .program .read)) ∧
      event.action.data ≠ b.step.chip.core.program.out ∧
      b.step.inReset = false ∧ b.step.step.cpu.instr = 255 := by
  refine ⟨⟨overwritten_reachable _ _ _, ?_⟩, ⟨?_, ?_⟩, ?_, ?_, ?_⟩
  all_goals decide +kernel

end

end Board

end BrainfuckBoard
