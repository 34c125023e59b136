import BrainfuckBoard.Instruction.Word
import BrainfuckBoard.Language.Outcome
import BrainfuckBoard.Language.Tape

/- What words mean: one instruction at a time, without the steps of the clock.
   A move shifts the head by the signed argument, a change adds or subtracts the
   argument as it stands. A jump that is taken leads on by the signed argument,
   and everything else by one word, round the store. -/
namespace BrainfuckBoard.Word

structure State where
  pc : Fin 32 := 0
  tape : Tape := {}
deriving DecidableEq, Repr

namespace State

/-- The state `offset` words on, with the given tape. -/
def goOn (s : State) (offset : Int) (tape : Tape) : State := ⟨ringPlace s.pc offset, tape⟩

def jump (s : State) (taken : Bool) (offset : Int) : Outcome State :=
  .silent (s.goOn (if taken then offset else 1) s.tape)

end State

/-- What a word does in a state. -/
def effect (w : Word) (s : State) : Outcome State :=
  if w.isHalt then .halt
  else match w.opcode with
    | .right => .silent (s.goOn 1 (s.tape.move w.signedArg))
    | .left => .silent (s.goOn 1 (s.tape.move (-w.signedArg)))
    | .add => .silent (s.goOn 1 (s.tape.write (s.tape.current + w.arg)))
    | .sub => .silent (s.goOn 1 (s.tape.write (s.tape.current - w.arg)))
    | .output => .output s.tape.current (s.goOn 1 s.tape)
    | .input => .input fun byte => s.goOn 1 (s.tape.write byte)
    | .jumpZero => s.jump (s.tape.current == 0) w.signedArg
    | .jumpNonzero => s.jump (s.tape.current != 0) w.signedArg

/-- One instruction of a program. -/
def step (program : Vector Word 32) (s : State) : Outcome State := effect program[s.pc] s

end BrainfuckBoard.Word
