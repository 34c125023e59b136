import BrainfuckBoard.Proofs.Board.Course

/- What is done to a board from outside while its clock stands still. But for the two
   resets it reaches the pins, the terminal and the contents of the memories, and nothing
   else (`Operation.outside`). So what it keeps, and a step keeps, and both resets leave,
   holds of every board that there is (`Reachable.holds`). -/
namespace BrainfuckBoard

namespace Terminal

/-- What is done to a terminal from outside. -/
inductive Handles (t : Terminal) : Terminal → Prop
  | kept : Handles t t
  | queue (frames : List Frame) : Handles t { t with sender := t.sender.enqueue frames }
  | gap (bits : UInt32) : Handles t { t with gap := bits }
  | restart : Handles t t.reset
  | period (steps : UInt32) : Handles t (t.setPeriod steps)

end Terminal

namespace Core

/-- What is done to the memories from outside. -/
inductive Fills (c : Core) : Core → Prop
  | kept : Fills c c
  | program (words : Bytes) :
      Fills c { c with program := .ofImage (Ram.image programDepth words) c.program.nonempty }
  | tape (bytes : Bytes) :
      Fills c { c with tape := .ofImage (Ram.image tapeDepth bytes) c.tape.nonempty }

end Core

namespace Board

namespace Operation

/-- The clock does not move, and the board is reset by nothing but its pin. -/
def live : Operation → Bool
  | .reset | .configure _ => false
  | op => op.stepless

/-- The program store is not filled past the wire. -/
def sparesProgram : Operation → Bool
  | .loadProgram _ => false
  | _ => true

/-- The tape is not filled from outside. -/
def sparesTape : Operation → Bool
  | .loadTape _ => false
  | _ => true

end Operation

/-- The pins, the terminal and the memories may have been handled, and nothing else. -/
def Outside (b b' : Board) : Prop :=
  ∃ pins attached terminal core, b' = { b with pins, attached, terminal, chip := { b.chip with core } } ∧
    b.terminal.Handles terminal ∧ b.chip.core.Fills core

/-- The serial parts of the chip, the reset and the time are as they were. -/
structure Spared (b b' : Board) : Prop where
  resetLine : b'.resetLine = b.resetLine
  baud : b'.chip.baud = b.chip.baud
  receiver : b'.chip.receiver = b.chip.receiver
  transmitter : b'.chip.transmitter = b.chip.transmitter
  loader : b'.chip.loader = b.chip.loader

section
variable {b b' b'' : Board} {op : Operation}

theorem outside_pins (pins : Pins) : Outside b { b with pins } :=
  ⟨pins, b.attached, b.terminal, b.chip.core, rfl, .kept, .kept⟩

theorem outside_terminal {terminal : Terminal} (h : b.terminal.Handles terminal) :
    Outside b { b with terminal } :=
  ⟨b.pins, b.attached, terminal, b.chip.core, rfl, h, .kept⟩

theorem outside_core {core : Core} (h : b.chip.core.Fills core) :
    Outside b { b with chip := { b.chip with core } } :=
  ⟨b.pins, b.attached, b.terminal, core, rfl, .kept, h⟩

theorem Operation.outside (h : op.live = true) : Outside b (b.perform op).2 := by
  cases op with
  | pulseRunStart => exact outside_pins _
  | setPin pin level => exact outside_pins _
  | attach on => exact ⟨b.pins, on, b.terminal, b.chip.core, rfl, .kept, .kept⟩
  | send bytes => exact outside_terminal (.queue _)
  | sendFrame byte stop => exact outside_terminal (.queue _)
  | resetTerminal => exact outside_terminal .restart
  | setPeriod steps => exact outside_terminal (.period steps)
  | setGap bits => exact outside_terminal (.gap bits)
  | loadProgram words => exact outside_core (.program words)
  | loadTape bytes => exact outside_core (.tape bytes)
  | _ => exact absurd h Bool.false_ne_true

theorem Outside.spared (h : Outside b b') : Spared b b' := by
  obtain ⟨pins, attached, terminal, core, rfl, -, -⟩ := h
  exact ⟨rfl, rfl, rfl, rfl, rfl⟩

theorem Spared.trans (h : Spared b b') (h' : Spared b' b'') : Spared b b'' where
  resetLine := h'.resetLine.trans h.resetLine
  baud := h'.baud.trans h.baud
  receiver := h'.receiver.trans h.receiver
  transmitter := h'.transmitter.trans h.transmitter
  loader := h'.loader.trans h.loader

theorem spared_after {ops : List Operation} (h : ∀ op ∈ ops, op.live = true) : Spared b (b.after ops) := by
  induction ops generalizing b with
  | nil => exact ⟨rfl, rfl, rfl, rfl, rfl⟩
  | cons op ops ih =>
    obtain ⟨hop, hops⟩ := List.forall_mem_cons.mp h
    have hfirst : Spared b (b.perform op).2 := (op.outside hop).spared
    exact hfirst.trans (ih hops)

/-- What is left of the core depends on the memory that is filled. -/
theorem Operation.core_spared (h : op.live = true) :
    (b.perform op).2.chip.core.cpu = b.chip.core.cpu ∧
      (op.sparesProgram = true → (b.perform op).2.chip.core.program = b.chip.core.program) ∧
      (op.sparesTape = true → (b.perform op).2.chip.core.tape = b.chip.core.tape) := by
  cases op with
  | loadProgram words =>
    refine ⟨?_, fun hs => absurd hs Bool.false_ne_true, fun _ => ?_⟩
    all_goals simp only [perform, done, Board.loadProgram]
  | loadTape bytes =>
    refine ⟨?_, fun _ => ?_, fun hs => absurd hs Bool.false_ne_true⟩
    all_goals simp only [perform, done, Board.loadTape]
  | pulseRunStart | setPin _ _ | attach _ | send _ | sendFrame _ _ | resetTerminal | setPeriod _ | setGap _ =>
    exact ⟨rfl, fun _ => rfl, fun _ => rfl⟩
  | _ => exact absurd h Bool.false_ne_true

theorem Operation.live_or_reset (h : op.stepless = true) :
    op.live = true ∨ op = .reset ∨ ∃ config, op = .configure config := by
  cases op with
  | reset => exact .inr (.inl rfl)
  | configure config => exact .inr (.inr ⟨config, rfl⟩)
  | _ => exact .inl h

/-- What a step and the world outside keep, and what both resets leave, holds of all boards. -/
theorem Reachable.holds {P : Board → Prop} (hconfigure : ∀ (b : Board) config, P (b.configure config))
    (hreset : ∀ b, P b → P b.reset) (hstep : ∀ b, P b → P b.step)
    (houtside : ∀ b b', Outside b b' → P b → P b') (h : b.Reachable) : P b := by
  apply h.keeps (fun config => hconfigure _ config) hstep
  intro b op hop hb
  rcases op.live_or_reset hop with hlive | rfl | ⟨config, rfl⟩
  · exact houtside b _ (op.outside hlive) hb
  · exact hreset b hb
  · exact hconfigure b config

end

end Board

end BrainfuckBoard
