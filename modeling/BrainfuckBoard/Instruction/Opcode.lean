import BrainfuckBoard.Text.Bytes

/- The eight commands of the language, which are also the eight opcodes of the
   board. An opcode is written as its command's character and numbered in the
   upper three bits of a word. -/
namespace BrainfuckBoard

inductive Opcode
  | right | left | add | sub | output | input | jumpZero | jumpNonzero
deriving DecidableEq, Repr

namespace Opcode

/-- In the order of their numbers. -/
def all : List Opcode := [right, left, add, sub, output, input, jumpZero, jumpNonzero]

def code : Opcode → Nat
  | right => 0
  | left => 1
  | add => 2
  | sub => 3
  | output => 4
  | input => 5
  | jumpZero => 6
  | jumpNonzero => 7

def ofCode? (n : Nat) : Option Opcode := all[n]?

def symbol : Opcode → Char
  | right => '>'
  | left => '<'
  | add => '+'
  | sub => '-'
  | output => '.'
  | input => ','
  | jumpZero => '['
  | jumpNonzero => ']'

def byte (op : Opcode) : UInt8 := op.symbol.toUInt8

/-- The command a source byte stands for; every other byte is a comment. -/
def ofByte? (b : UInt8) : Option Opcode := all.find? (·.byte == b)

/-- The opcodes that look at the current cell before they act. -/
def readsCell : Opcode → Bool
  | add | sub | output | jumpZero | jumpNonzero => true
  | right | left | input => false

end Opcode

theorem Opcode.ofCode?_code (op : Opcode) : Opcode.ofCode? op.code = some op := by
  cases op <;> rfl

theorem Opcode.ofByte?_byte (op : Opcode) : Opcode.ofByte? op.byte = some op := by
  cases op <;> rfl

end BrainfuckBoard
