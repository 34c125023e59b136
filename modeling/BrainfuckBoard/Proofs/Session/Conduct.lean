import BrainfuckBoard.Proofs.Board.FreshStart
import BrainfuckBoard.Session.Transcript

/- What a session does to its board. Every command steps the board or does one of a few
   operations to it (`inSession`), so that what these keep holds of the board of any session
   (`respond_keeps`, `Reachable.holds`). None of them detaches the terminal, touches its rates
   or pulls the reset pin low (`Reachable.attended`). -/
namespace BrainfuckBoard

/-- What a session does to its board besides steps. -/
def Board.Operation.inSession : Board.Operation → Bool
  | .pulseRunStart | .send _ | .setPin .upload _ | .reset | .resetTerminal => true
  | _ => false

namespace Session

/-- The sessions that there are, from an opening on. A file can have another content each time
    that it is read. -/
inductive Reachable : Session → Prop
  | start {options : Options} {content : Option Bytes} {shown : Console} {s : Session}
      (h : Session.start options content = (shown, some s)) : Reachable s
  | respond {s : Session} (h : Reachable s) (command : Command) (content : Option Bytes) :
      Reachable (s.respond command content).1

section
variable {P : Board → Prop} {b : Board} {s : Session} {breaks : List UInt8} {kind : FileKind}
  {content : Option Bytes} {options : Options} {shown : Console}

/-! ## What a session keeps -/

theorem runInstructions_keeps (hstep : ∀ b, P b → P b.step) :
    ∀ {n : Nat} {b : Board}, P b → P (runInstructions breaks n b).2
  | 0, _, h => h
  | n + 1, b, h => by
    unfold runInstructions
    split
    · exact h
    · have hnext : P (b.stepInstruction instructionBudget).2 := Board.stepInstruction_keeps hstep h
      split
      · next hb => rwa [hb] at hnext
      · next hb =>
        rw [hb] at hnext
        split
        · exact hnext
        · exact runInstructions_keeps hstep hnext

theorem runOn_keeps (hstep : ∀ b, P b → P b.step) :
    ∀ {budget : Nat} {b : Board}, P b → P (runOn breaks budget b).2
  | 0, _, h => h
  | budget + 1, b, h => by
    unfold runOn
    split
    · exact h
    · split
      · exact h
      · exact runOn_keeps hstep (hstep b h)

theorem go_keeps (hstep : ∀ b, P b → P b.step) (h : P b) : P (go breaks b).2 := by
  unfold go
  split
  · exact h
  · exact runOn_keeps hstep (hstep b h)

variable (hstep : ∀ b, P b → P b.step)
  (hop : ∀ b (op : Board.Operation), op.stepless = true → op.inSession = true → P b → P (b.perform op).2)

include hop in
theorem resetBoard_keeps (h : P b) : P (resetBoard b) :=
  hop _ .resetTerminal rfl rfl (hop _ .reset rfl rfl h)

include hstep hop

theorem loadProgram_keeps (h : P b) : P (loadProgram b kind content).2 := by
  unfold loadProgram
  split
  · exact h
  · next words _ =>
    have hloaded : P ((resetBoard b).upload words uploadBudget).2 :=
      Board.upload_keeps Board.Operation.inSession hstep hop (fun _ => rfl) (fun _ => rfl)
        (resetBoard_keeps hop h)
    split
    · next hb => rwa [hb] at hloaded
    · next hb => rwa [hb] at hloaded

theorem respond_keeps (h : P s.board) (command : Command) : P (s.respond command content).1.board := by
  cases command with
  | stepInstruction =>
    simp only [respond, Session.stepInstruction]
    split
    · exact h
    · have hnext : P (s.board.stepInstruction instructionBudget).2 := Board.stepInstruction_keeps hstep h
      split
      · next hb => rwa [hb] at hnext
      · next hb => rwa [hb] at hnext
  | stepClock n => exact Board.steps_keep hstep h
  | runInstructions n => exact runInstructions_keeps hstep h
  | go => exact go_keeps hstep h
  | start => exact hstep _ (hop _ .pulseRunStart rfl rfl h)
  | reset => exact resetBoard_keeps hop h
  | send bytes => exact hop _ (.send bytes) rfl rfl h
  | sendHex bytes => exact hop _ (.send bytes) rfl rfl h
  | upload on => exact hop _ (.setPin .upload on) rfl rfl h
  | load kind path =>
    have hloaded : P (loadProgram s.board kind content).2 := loadProgram_keeps hstep hop h
    simp only [respond, load]
    split
    · next hb => rwa [hb] at hloaded
    · next hb => rwa [hb] at hloaded
  | _ => exact h

theorem start_keeps (hs : start options content = (shown, some s)) (h : P (.ofConfig options.config)) :
    P s.board := by
  unfold start at hs
  split at hs
  · cases hs
    exact h
  · have hloaded : P (loadProgram (.ofConfig options.config) (.ofPath options.program) content).2 :=
      loadProgram_keeps hstep hop h
    dsimp only at hs
    split at hs
    · next hb =>
      cases hs
      rwa [hb] at hloaded
    · cases hs

theorem Reachable.holds (hstart : ∀ config, P (.ofConfig config)) (h : s.Reachable) : P s.board := by
  induction h with
  | start h => exact start_keeps hstep hop h (hstart _)
  | respond _ command content ih => exact respond_keeps hstep hop ih command

end

/-! ## The terminal and its rates -/

/-- The terminal is attached, with the rate of the chip and a gap of one bit, and the reset pin
    is high. -/
structure Attended (b : Board) : Prop where
  attached : b.attached = true
  resetPin : b.pins.reset = true
  gap : b.terminal.gap = 1
  period : b.terminal.period = max 2 b.chip.baud.bitDivisor

section
variable {b : Board} {s : Session} {op : Board.Operation}

theorem Attended.step (h : Attended b) : Attended b.step where
  attached := h.attached
  resetPin := Board.driven_reset.trans h.resetPin
  gap := by
    rw [show b.step.terminal = b.nextTerminal _ from rfl, ← h.gap]
    unfold Board.nextTerminal
    split <;> rfl
  period := by
    have hbaud : b.step.chip.baud.reset.bitDivisor = b.chip.baud.reset.bitDivisor :=
      congrArg BaudClock.bitDivisor (Board.reset_nextChip b _)
    rw [show b.step.terminal = b.nextTerminal _ from rfl, Board.period_nextTerminal, h.period]
    exact congrArg (max 2) hbaud.symm

theorem Attended.perform (h : Attended b) (hop : op.inSession = true) : Attended (b.perform op).2 := by
  cases op with
  | pulseRunStart | send _ | reset | resetTerminal => exact ⟨h.attached, h.resetPin, h.gap, h.period⟩
  | setPin pin on =>
    cases pin with
    | upload => exact ⟨h.attached, h.resetPin, h.gap, h.period⟩
    | _ => exact absurd hop Bool.false_ne_true
  | _ => exact absurd hop Bool.false_ne_true

theorem Reachable.attended (h : s.Reachable) : Attended s.board :=
  h.holds (fun _ => Attended.step) (fun _ _ _ hop hb => hb.perform hop) fun _ => ⟨rfl, rfl, rfl, rfl⟩

end

end Session

end BrainfuckBoard
