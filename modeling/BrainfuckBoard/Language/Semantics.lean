import BrainfuckBoard.Instruction.Opcode
import BrainfuckBoard.Language.Outcome
import BrainfuckBoard.Language.Tape

/- What a source text means, without words and addresses.
   `Code.ofSource?` reads the commands of a text, in which every other byte is a
   comment, as actions and loops; it is `none` where the brackets do not match.
   `Code.step` carries out the first of them on a tape. A loop whose cell is not
   zero puts its body in front of itself. -/
namespace BrainfuckBoard

inductive Action
  | right | left | add | sub | output | input
deriving DecidableEq, Repr

/-- What is left of a program to run. -/
inductive Code
  | done
  | act (action : Action) (rest : Code)
  | loop (body rest : Code)
deriving DecidableEq, Repr

namespace Code

/-- One code, and then another. -/
def andThen : Code → Code → Code
  | done, next => next
  | act action rest, next => act action (rest.andThen next)
  | loop body rest, next => loop body (rest.andThen next)

def commands (source : Bytes) : List Opcode := source.filterMap Opcode.ofByte?

/-- Reads commands from the last to the first: the code up to the first `]` that
    closes a bracket before it, and the codes after this and further such
    brackets, from the inside out. -/
def parse : List Opcode → Option (Code × List Code)
  | [] => some (done, [])
  | op :: ops =>
    match parse ops with
    | none => none
    | some (code, after) =>
      match op with
      | .right => some (act .right code, after)
      | .left => some (act .left code, after)
      | .add => some (act .add code, after)
      | .sub => some (act .sub code, after)
      | .output => some (act .output code, after)
      | .input => some (act .input code, after)
      | .jumpNonzero => some (done, code :: after)
      | .jumpZero => match after with
        | [] => none
        | rest :: after => some (loop code rest, after)

def ofSource? (source : Bytes) : Option Code :=
  match parse (commands source) with
  | some (code, []) => some code
  | _ => none

/-- One action or one turn of a loop. -/
def step : Code × Tape → Outcome (Code × Tape)
  | (done, _) => .halt
  | (act .right rest, t) => .silent (rest, t.move 1)
  | (act .left rest, t) => .silent (rest, t.move (-1))
  | (act .add rest, t) => .silent (rest, t.write (t.current + 1))
  | (act .sub rest, t) => .silent (rest, t.write (t.current - 1))
  | (act .output rest, t) => .output t.current (rest, t)
  | (act .input rest, t) => .input fun byte => (rest, t.write byte)
  | (loop body rest, t) =>
    if t.current = 0 then .silent (rest, t) else .silent (body.andThen (loop body rest), t)

end Code

end BrainfuckBoard
