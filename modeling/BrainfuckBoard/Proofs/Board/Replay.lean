import Mathlib.Data.List.Basic
import BrainfuckBoard.Proofs.Board.Deposits
import BrainfuckBoard.Proofs.Board.Soundness

/- The events of the timeline against what they are events of. They are noted beside the
   accesses to the memories and the serial line, and not by them. In every step out of reset
   the writes that are noted make the cells after the step out of those before it
   (`Steady.store_program`, `Steady.store_tape`), and the bytes that are noted are those that
   the transmitter takes and the receiver shows (`notes_of_run`). So a run can be read off
   its timeline, if the timeline is long enough (`traced_of_run`). -/
namespace BrainfuckBoard

/-! ## Events on a port -/

namespace BusAction

/-- The action is on the given port, in the given direction. -/
def on (target : BusTarget) (direction : BusDirection) (a : BusAction) : Bool :=
  a.target = target ∧ a.direction = direction

/-- Puts the data at the address, if there is such an address. -/
def store {depth : Nat} (cells : Vector UInt8 depth) (a : BusAction) : Vector UInt8 depth :=
  cells.setIfInBounds a.address.toNat a.data

end BusAction

namespace Chip

section
variable {c : Chip} {pins : Pins}

/-- What is on a port in a step, in one direction. -/
def carried (c : Chip) (pins : Pins) : BusTarget → BusDirection → List BusAction
  | .program, .write => c.loader.written?.toList.map fun (addr, value) => .upload addr value
  | .program, .read => (c.core.requests (c.coreInputs pins)).programRead.toList.map fun addr =>
      .fetch addr (c.core.program.peek addr.toNat)
  | .tape, .write => (c.core.requests (c.coreInputs pins)).tapeWrite.toList.map fun (addr, value) =>
      .cellWrite addr value
  | .tape, .read => (c.core.requests (c.coreInputs pins)).tapeRead.toList.map fun addr =>
      .cellRead addr (c.core.tape.peek addr.toNat)
  | .transmitter, .write => (c.sent? pins).toList.map .send
  | .receiver, .read => c.receiver.byte?.toList.map fun byte => .receive byte pins.upload
  | .receiver, .none => if c.receiver.frameError then [.framingError] else []
  | _, _ => []

theorem filter_actions (target : BusTarget) (direction : BusDirection) :
    (c.actions pins).filter (BusAction.on target direction) = c.carried pins target direction := by
  cases hv : c.receiver.valid <;> cases he : c.receiver.frameError <;>
    cases target <;> cases direction <;>
    simp [actions, Core.actions, carried, sent?, coreInputs, Receiver.byte?, BusAction.on,
      BusAction.target, BusAction.direction, List.filter_map, Function.comp_def, List.filter_true,
      List.filter_false, hv, he]

end

end Chip

namespace TraceFrame

/-- The events of the frame with an action of some kind. -/
def noted (frame : TraceFrame) (p : BusAction → Bool) : List BusEvent :=
  frame.events.filter fun event => p event.action

end TraceFrame

/-- The memory after the writes of some events. -/
def replay {depth : Nat} (cells : Vector UInt8 depth) (events : List BusEvent) : Vector UInt8 depth :=
  events.foldl (fun cells event => event.action.store cells) cells

theorem replay_append {depth : Nat} (cells : Vector UInt8 depth) (events more : List BusEvent) :
    replay cells (events ++ more) = replay (replay cells events) more :=
  List.foldl_append

/-! ## What a step writes -/

/-- An address that does not have to be brought round. -/
theorem set_mod {depth : Nat} (cells : Vector UInt8 depth) {addr : Nat} (h : addr < depth)
    (hmod : addr % depth < depth) (value : UInt8) :
    cells.set (addr % depth) value hmod = cells.setIfInBounds addr value := by
  simp [Vector.set, Vector.setIfInBounds, Array.setIfInBounds, Nat.mod_eq_of_lt h, h]

namespace Cpu

section
variable {c : Cpu} {i : Inputs} {programDepth tapeDepth : Nat} {addr value : UInt8}

/-- Only the current cell is written. -/
theorem execute_write (h : (c.execute i programDepth tapeDepth).2.tapeWrite = some (addr, value)) :
    addr = c.dp := by
  unfold execute at h
  split at h
  case h_3 => exact congrArg Prod.fst (Option.some.inj h).symm
  case h_4 => exact congrArg Prod.fst (Option.some.inj h).symm
  case h_5 =>
    dsimp only at h
    split at h <;> exact absurd h nofun
  case h_6 =>
    split at h
    · exact congrArg Prod.fst (Option.some.inj h).symm
    · exact absurd h nofun
  all_goals exact absurd h nofun

theorem step_write (h : (c.step i programDepth tapeDepth).2.tapeWrite = some (addr, value)) :
    addr = c.dp := by
  unfold step at h
  split at h
  case h_1 => split at h <;> exact absurd h nofun
  case h_7 => exact execute_write h
  case h_9 => split at h <;> exact absurd h nofun
  case h_10 =>
    split at h
    · exact congrArg Prod.fst (Option.some.inj h).symm
    · exact absurd h nofun
  all_goals exact absurd h nofun

end

end Cpu

namespace Core

section
variable {c : Core} {i : Inputs}

theorem clock_tape_written {addr value : UInt8}
    (hw : (c.requests i).tapeWrite = some (addr, value)) :
    (c.clock i).tape.cells =
      c.tape.cells.set (c.tape.index addr.toNat).val value (c.tape.index addr.toNat).isLt := by
  simp only [clock, tapeAsked, hw]
  cases (c.requests i).tapeRead with
  | none => rfl
  | some _ => rfl

end

end Core

namespace Transmitter

/-- The byte that is taken between two states, if one is. -/
def taken? (t t' : Transmitter) : Option UInt8 :=
  match t.phase, t'.phase with
  | .idle, .start byte => some byte
  | _, _ => none

/-- What is offered only to a free transmitter is taken. -/
theorem Regular.taken {t : Transmitter} (h : t.Regular) {offered : Option UInt8}
    (hfree : offered ≠ none → t.busy = false) (ticked : Bool) :
    t.taken? (t.clock offered ticked) = offered := by
  rcases h with rfl | ⟨byte, h⟩
  · cases offered <;> rfl
  · obtain rfl : offered = none := Speaking.nothing_of_sends h hfree
    have hidle := h.ne_idle
    unfold taken?
    split
    · next hp _ => exact absurd hp hidle
    · rfl

end Transmitter

namespace Chip

/-! ## A step and its notes -/

/-- What the notes on the memories and on the transmitter rely on. -/
structure Steady (c : Chip) : Prop where
  program : c.core.program.Settled
  tape : c.core.tape.Settled
  addr : c.loader.addr.toNat < programDepth
  rings : c.core.cpu.OnRings programDepth tapeDepth
  transmitter : c.transmitter.Regular

theorem steady_reset (c : Chip) : c.reset.Steady where
  program := ⟨rfl, rfl⟩
  tape := ⟨rfl, rfl⟩
  addr := show (0 : UInt8).toNat < programDepth by decide
  rings := Core.coherent_initial.rings
  transmitter := .inl rfl

section
variable {c : Chip} {pins : Pins}

theorem Steady.clock (h : c.Steady) (pins : Pins) : (c.clock pins).Steady where
  program := ⟨rfl, rfl⟩
  tape := ⟨rfl, rfl⟩
  addr := Loader.addr_clock_lt h.addr (by decide) _ _
  rings := h.rings.step (by decide) (by decide)
  transmitter := h.transmitter.clock _ _

theorem Steady.fills (h : c.Steady) {core : Core} (hcore : c.core.Fills core) :
    ({ c with core } : Chip).Steady := by
  cases hcore with
  | kept => exact h
  | program words => exact ⟨⟨rfl, rfl⟩, h.tape, h.addr, h.rings, h.transmitter⟩
  | tape bytes => exact ⟨h.program, ⟨rfl, rfl⟩, h.addr, h.rings, h.transmitter⟩

theorem Steady.store_program (h : c.Steady) : (c.clock pins).core.program.cells =
    (c.carried pins .program .write).foldl BusAction.store c.core.program.cells := by
  change (c.core.clock (c.coreInputs pins)).program.cells = _
  rw [Core.clock_program_deposit h.program]
  simp only [coreInputs, carried, Loader.written?]
  split
  · exact set_mod _ h.addr (Nat.mod_lt _ (by decide)) _
  · rfl

theorem Steady.store_tape (h : c.Steady) : (c.clock pins).core.tape.cells =
    (c.carried pins .tape .write).foldl BusAction.store c.core.tape.cells := by
  change (c.core.clock (c.coreInputs pins)).tape.cells = _
  cases hw : (c.core.requests (c.coreInputs pins)).tapeWrite with
  | none =>
    simp only [carried, hw]
    exact Core.clock_tape_cells h.tape hw
  | some word =>
    obtain ⟨addr, value⟩ := word
    -- Without this the cell that is written could be another one than the note says.
    have haddr : addr.toNat < tapeDepth := by
      rw [Cpu.step_write hw]
      exact h.rings.dp
    simp only [carried, hw]
    rw [Core.clock_tape_written hw]
    exact set_mod _ haddr _ _

theorem Steady.taken (h : c.Steady) :
    c.transmitter.taken? (c.clock pins).transmitter = c.sent? pins :=
  h.transmitter.taken free_of_sent _

/-- Nothing is read from the transmitter. -/
theorem filter_sent : ((c.actions pins).filter fun a => a.target = .transmitter) =
    (c.sent? pins).toList.map .send := by
  cases hv : c.receiver.valid <;> cases he : c.receiver.frameError <;>
    simp [actions, Core.actions, sent?, BusAction.target, List.filter_map, Function.comp_def,
      List.filter_true, List.filter_false, hv, he]

end

end Chip

namespace Board

section
variable {b b' : Board} {before : Nat → List Operation} {n : Nat}

theorem Reachable.steady (h : b.Reachable) : b.chip.Steady := by
  refine h.holds (P := fun b => b.chip.Steady) ?_ ?_ ?_ ?_
  · exact fun b config => Chip.steady_reset (b.configure config).chip
  · exact fun b _ => Chip.steady_reset b.chip
  · intro b hb
    change (b.nextChip _).Steady
    unfold nextChip
    split
    · exact Chip.steady_reset _
    · exact hb.clock _
  · rintro b b' ⟨pins, attached, terminal, core, rfl, -, hcore⟩ hb
    exact hb.fills hcore

/-- A byte that shows in the step, with the step and the consumer that the upload pin selects. -/
def pulse? (b : Board) : Option (Nat × UInt8 × String) :=
  b.chip.receiver.byte?.map fun byte =>
    (b.cycles, byte, if b.pins.upload then "rx -> loader" else "rx -> engine")

/-- What the frame of a step tells of it. -/
structure Notes (b : Board) (frame : TraceFrame) : Prop where
  program : b.step.chip.core.program.cells =
    replay b.chip.core.program.cells (frame.noted (BusAction.on .program .write))
  tape : b.step.chip.core.tape.cells =
    replay b.chip.core.tape.cells (frame.noted (BusAction.on .tape .write))
  single : (frame.noted (BusAction.on .program .write)).length ≤ 1 ∧
    (frame.noted (BusAction.on .tape .write)).length ≤ 1
  sent : ((frame.noted fun a => a.target = .transmitter).map fun event => event.action.data) =
    (b.chip.transmitter.taken? b.step.chip.transmitter).toList
  received : ((frame.noted (BusAction.on .receiver .read)).map fun event =>
    (event.cycle, event.action.data, event.action.note)) = b.pulse?.toList

theorem noted_traceFrame (chip : Chip) (p : BusAction → Bool) : (b.traceFrame false chip).noted p =
    ((b.chip.actions b.drivenPins).filter p).map fun action =>
      { cycle := b.cycles, phase := b.chip.core.cpu.phase, action } := by
  simp [TraceFrame.noted, traceFrame, events, List.filter_map, Function.comp_def]

theorem notes_of_run (h : b.Reachable) (hrun : b.inReset = false) (chip : Chip) :
    b.Notes (b.traceFrame false chip) := by
  have hsteady := h.steady
  have hchip : b.step.chip = b.chip.clock b.drivenPins := step_chip_of_run hrun
  refine ⟨?_, ?_, ?_, ?_, ?_⟩
  · rw [hchip, noted_traceFrame, Chip.filter_actions, replay, List.foldl_map]
    exact hsteady.store_program
  · rw [hchip, noted_traceFrame, Chip.filter_actions, replay, List.foldl_map]
    exact hsteady.store_tape
  · simp only [noted_traceFrame, Chip.filter_actions, Chip.carried, List.length_map]
    exact ⟨Option.length_toList_le, Option.length_toList_le⟩
  · rw [hchip, hsteady.taken, noted_traceFrame, Chip.filter_sent]
    cases b.chip.sent? b.drivenPins <;> rfl
  · rw [noted_traceFrame, Chip.filter_actions]
    simp only [Chip.carried, driven_upload, pulse?]
    cases b.chip.receiver.byte? <;> cases b.pins.upload <;> rfl

/-! ## The timeline of a run -/

/-- The frames of the last `n` steps. -/
def recorded (b : Board) (before : Nat → List Operation) (n : Nat) : List TraceFrame :=
  (b.course before n).timeline.last n

/-- The bytes that the transmitter takes in the first `n` steps. -/
def accepted (b : Board) (before : Nat → List Operation) (n : Nat) : Bytes :=
  (List.range n).flatMap fun k =>
    ((b.opening before k).chip.transmitter.taken? (b.opening before k).step.chip.transmitter).toList

/-- The bytes that show in the first `n` steps. -/
def pulses (b : Board) (before : Nat → List Operation) (n : Nat) : List (Nat × UInt8 × String) :=
  (List.range n).flatMap fun k => (b.opening before k).pulse?.toList

theorem timeline_after {ops : List Operation} (h : ∀ op ∈ ops, op.live = true) :
    (b.after ops).timeline = b.timeline := by
  induction ops generalizing b with
  | nil => rfl
  | cons op ops ih =>
    obtain ⟨hop, hops⟩ := List.forall_mem_cons.mp h
    have hfirst : (b.perform op).2.timeline = b.timeline := by
      obtain ⟨pins, attached, terminal, core, hb, -, -⟩ := op.outside (b := b) hop
      rw [hb]
    exact (ih hops).trans hfirst

theorem tape_after {ops : List Operation} (hlive : ∀ op ∈ ops, op.live = true)
    (hspare : ∀ op ∈ ops, op.sparesTape = true) : (b.after ops).chip.core.tape = b.chip.core.tape := by
  induction ops generalizing b with
  | nil => rfl
  | cons op ops ih =>
    obtain ⟨hop, hops⟩ := List.forall_mem_cons.mp hlive
    obtain ⟨hs, hss⟩ := List.forall_mem_cons.mp hspare
    exact (ih hops hss).trans ((op.core_spared hop).2.2 hs)

theorem limit_course (hlive : ∀ k, ∀ op ∈ before k, op.live = true) : ∀ n,
    (b.course before n).timeline.limit = b.timeline.limit
  | 0 => rfl
  | n + 1 => by
    rw [course_succ, step, limit_record, opening, timeline_after (hlive n)]
    exact limit_course hlive n

theorem recorded_succ (hlive : ∀ k, ∀ op ∈ before k, op.live = true)
    (hrun : (b.opening before n).inReset = false) (hn : n < b.timeline.limit) :
    b.recorded before (n + 1) = b.recorded before n ++
      [(b.opening before n).traceFrame false (b.opening before n).step.chip] := by
  have htimeline : (b.opening before n).timeline = (b.course before n).timeline :=
    timeline_after (hlive n)
  have hlimit : n < (b.course before n).timeline.limit := by
    rw [limit_course hlive]
    exact hn
  calc (b.course before (n + 1)).timeline.last (n + 1)
    _ = ((b.opening before n).timeline.record ((b.opening before n).traceFrame
          (b.opening before n).inReset (b.opening before n).step.chip)).last (n + 1) := rfl
    _ = _ := by
      rw [hrun, htimeline, Timeline.last_record _ _ hlimit]
      rfl

/-- What can be read off the frames of the last `n` steps. -/
structure Traced (b : Board) (before : Nat → List Operation) (n : Nat) : Prop where
  frames : (b.recorded before n).length = n
  single : ∀ frame ∈ b.recorded before n, (frame.noted (BusAction.on .program .write)).length ≤ 1 ∧
    (frame.noted (BusAction.on .tape .write)).length ≤ 1
  program : (b.course before n).chip.core.program.cells = replay b.chip.core.program.cells
    ((b.recorded before n).flatMap fun frame => frame.noted (BusAction.on .program .write))
  tape : (b.course before n).chip.core.tape.cells = replay b.chip.core.tape.cells
    ((b.recorded before n).flatMap fun frame => frame.noted (BusAction.on .tape .write))
  sent : (((b.recorded before n).flatMap fun frame => frame.noted fun a => a.target = .transmitter).map
    fun event => event.action.data) = b.accepted before n
  received : (((b.recorded before n).flatMap fun frame => frame.noted (BusAction.on .receiver .read)).map
    fun event => (event.cycle, event.action.data, event.action.note)) = b.pulses before n

theorem traced_start : Traced b before 0 := by
  have hnone : b.recorded before 0 = [] := by simp [recorded, Timeline.last]
  refine ⟨?_, ?_, ?_, ?_, ?_, ?_⟩ <;> rw [hnone]
  · rfl
  · intro frame hframe
    exact absurd hframe List.not_mem_nil
  all_goals rfl

theorem Traced.next (h : Traced b before n) (hb : b.Reachable) (hlive : ∀ k, ∀ op ∈ before k, op.live = true)
    (hspare : ∀ op ∈ before n, op.sparesProgram = true ∧ op.sparesTape = true)
    (hrun : (b.opening before n).inReset = false) (hn : n < b.timeline.limit) :
    Traced b before (n + 1) := by
  have hopening : (b.opening before n).Reachable := (hb.course n).after (before n)
  have hnotes := notes_of_run hopening hrun (b.opening before n).step.chip
  have hprogram : (b.opening before n).chip.core.program = (b.course before n).chip.core.program :=
    program_after (hlive n) fun op hop => (hspare op hop).1
  have htape : (b.opening before n).chip.core.tape = (b.course before n).chip.core.tape :=
    tape_after (hlive n) fun op hop => (hspare op hop).2
  refine ⟨?_, ?_, ?_, ?_, ?_, ?_⟩ <;> rw [recorded_succ hlive hrun hn]
  · rw [List.length_append, h.frames]
    rfl
  · intro frame hframe
    rcases List.mem_append.mp hframe with hold | hnew
    · exact h.single frame hold
    · obtain rfl := List.mem_singleton.mp hnew
      exact hnotes.single
  · rw [List.flatMap_append, replay_append, ← h.program, List.flatMap_singleton, ← hprogram]
    exact hnotes.program
  · rw [List.flatMap_append, replay_append, ← h.tape, List.flatMap_singleton, ← htape]
    exact hnotes.tape
  · rw [List.flatMap_append, List.map_append, h.sent, List.flatMap_singleton, hnotes.sent]
    simp [accepted, List.range_succ]
  · rw [List.flatMap_append, List.map_append, h.received, List.flatMap_singleton, hnotes.received]
    simp [pulses, List.range_succ]

/-- From any board on, as long as it is not in reset and the memories are not filled past the
    wire. Everything else may be done to it between the steps. -/
theorem traced_of_run (h : b.Reachable)
    (hops : ∀ k, ∀ op ∈ before k, op.live = true ∧ op.sparesProgram = true ∧ op.sparesTape = true)
    (hrun : ∀ k, k < n → (b.opening before k).inReset = false) (hlimit : n ≤ b.config.traceLimit) :
    Traced b before n := by
  rw [← h.tuned.limit] at hlimit
  induction n with
  | zero => exact traced_start
  | succ n ih =>
    have hn : Traced b before n := ih (fun k hk => hrun k (Nat.lt_succ_of_lt hk)) (Nat.le_of_lt hlimit)
    exact hn.next h (fun k op hop => (hops k op hop).1) (fun op hop => (hops n op hop).2)
      (hrun n (Nat.lt_succ_self n)) hlimit

/-- At sixteen steps to a bit, near the end of a frame in both directions: the program sends the
    next byte, a byte shows, upload mode ends, the byte is written, and then the cell. -/
theorem traced_of_run_crossing :
    let b := (ofConfig ⟨1843200, 115200, 10⟩).after [.loadProgram [65, 128, 128, 128, 65, 128],
      .pulseRunStart, .step 3, .setPin .upload true, .send [7, 9], .step 328]
    let before : Nat → List Operation := fun k => if k = 4 then [.setPin .upload false] else []
    (b.Reachable ∧
      (∀ k, ∀ op ∈ before k, op.live = true ∧ op.sparesProgram = true ∧ op.sparesTape = true) ∧
      (∀ k, k < 10 → (b.opening before k).inReset = false) ∧ 10 ≤ b.config.traceLimit) ∧
    Traced b before 10 ∧ b.accepted before 10 = [1] ∧ b.pulses before 10 = [(334, 9, "rx -> loader")] ∧
      (b.course before 10).chip.core.program.cells ≠ b.chip.core.program.cells ∧
      (b.course before 10).chip.core.tape.cells ≠ b.chip.core.tape.cells := by
  intro b before
  have hb : b.Reachable := (Reachable.start _).after _
  have hops : ∀ k, ∀ op ∈ before k, op.live = true ∧ op.sparesProgram = true ∧ op.sparesTape = true := by
    intro k op hop
    dsimp only [before] at hop
    split at hop
    · obtain rfl := List.mem_singleton.mp hop
      exact ⟨rfl, rfl, rfl⟩
    · exact absurd hop List.not_mem_nil
  have hrun : ∀ k, k < 10 → (b.opening before k).inReset = false := by decide +kernel
  have hlimit : 10 ≤ b.config.traceLimit := by decide +kernel
  exact ⟨⟨hb, hops, hrun, hlimit⟩, traced_of_run hb hops hrun hlimit, by decide +kernel,
    by decide +kernel, by decide +kernel, by decide +kernel⟩

end

end Board

end BrainfuckBoard
