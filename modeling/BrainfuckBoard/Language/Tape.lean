import BrainfuckBoard.Instruction.Ring

/- The tape of a program: sixteen cells in a ring, one of which is current. -/
namespace BrainfuckBoard

structure Tape where
  head : Fin 16 := 0
  cells : Vector UInt8 16 := Vector.replicate 16 0
deriving DecidableEq, Repr

namespace Tape

def current (t : Tape) : UInt8 := t.cells[t.head]

def write (t : Tape) (value : UInt8) : Tape := { t with cells := t.cells.set t.head value }

def move (t : Tape) (offset : Int) : Tape := { t with head := ringPlace t.head offset }

end Tape

end BrainfuckBoard
