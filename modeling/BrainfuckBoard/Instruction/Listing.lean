import BrainfuckBoard.Instruction.Ring
import BrainfuckBoard.Instruction.Word
import BrainfuckBoard.Text.Numeral

/- The listing of a word: its value, its command and the argument in the form
   the command reads it. A jump shows the address it leads to. -/
namespace BrainfuckBoard.Word

open Text

/-- The argument as it stands in the listing, after the command. -/
def operand (w : Word) (addr depth : Nat) : String :=
  match w.opcode with
  | .right | .left => s!" {w.signedArg}"
  | .add | .sub => s!" {w.arg}"
  | .output | .input => ""
  | .jumpZero | .jumpNonzero => s!" ->{hexByte (ringMove addr w.signedArg depth)}"

/-- The listing of a word at `addr` in a store of `depth` words. -/
def listing (w : Word) (addr depth : Nat) : String :=
  let command := if w.isHalt then "HALT" else s!"{w.opcode.symbol}{w.operand addr depth}"
  s!"0x{hexByte w}  {command}"

/-- The listings of words that follow one another from `addr` on. Addresses are
    32 bits wide. -/
def listings (words : List Word) (addr : UInt32) (depth : Nat) : List String :=
  words.zipIdx.map fun (w, k) => w.listing (addr + UInt32.ofNat k).toNat depth

end BrainfuckBoard.Word
