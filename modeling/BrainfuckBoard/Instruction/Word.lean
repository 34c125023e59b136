import BrainfuckBoard.Instruction.Opcode

/- Instruction words. A word is one byte: the opcode in the upper three bits and
   an argument of five bits below. Cell changes read the argument as 0 to 31,
   moves and jumps as a two's complement number from -16 to 15. The word 0,
   a move by nothing, is the halt word. -/
namespace BrainfuckBoard

abbrev Word := UInt8

namespace Word

def halt : Word := 0

/-- Only the low five bits of the argument are kept. -/
def encode (op : Opcode) (arg : Nat) : Word := UInt8.ofNat (op.code * 32 + arg % 32)

def encodeSigned (op : Opcode) (arg : Int) : Word := encode op (arg % 32).toNat

def opcode (w : Word) : Opcode :=
  match w.toNat / 32 with
  | 0 => .right
  | 1 => .left
  | 2 => .add
  | 3 => .sub
  | 4 => .output
  | 5 => .input
  | 6 => .jumpZero
  | _ => .jumpNonzero

def arg (w : Word) : UInt8 := w % 32

def signedArg (w : Word) : Int :=
  if w.arg < 16 then w.arg.toNat else w.arg.toNat - 32

def isHalt (w : Word) : Bool := w == halt

end Word

theorem Word.toNat_encode (op : Opcode) (arg : Nat) :
    (Word.encode op arg).toNat = op.code * 32 + arg % 32 := by
  have h : op.code ≤ 7 := by cases op <;> decide
  have h₁ : arg % 32 < 32 := Nat.mod_lt _ (by decide)
  simp only [Word.encode, UInt8.toNat_ofNat']
  omega

theorem Word.opcode_encode (op : Opcode) (arg : Nat) : (Word.encode op arg).opcode = op := by
  have h₁ : arg % 32 < 32 := Nat.mod_lt _ (by decide)
  have h : (op.code * 32 + arg % 32) / 32 = op.code := by omega
  simp only [Word.opcode, Word.toNat_encode, h]
  cases op <;> rfl

theorem Word.arg_encode (op : Opcode) (arg : Nat) :
    (Word.encode op arg).arg.toNat = arg % 32 := by
  have h₁ : (32 : UInt8).toNat = 32 := rfl
  simp only [Word.arg, UInt8.toNat_mod, Word.toNat_encode, h₁]
  omega

end BrainfuckBoard
