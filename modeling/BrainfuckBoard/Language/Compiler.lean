import BrainfuckBoard.Instruction.Word
import BrainfuckBoard.Language.Runs

/- From source text to words, in one pass over the runs.
   1. A run of `+` or `-` takes words of at most 31, a run of `>` or `<` words
      of at most 15; `.` and `,` take one word each.
   2. `[` opens a new stretch of code. At its `]` the stretch is closed in
      between two jumps: forward past the `]`, and back to the `[`. The forward
      jump reaches 15 words, so a loop holds at most 13 words.
   3. The first `]` that cannot be closed stops the compiler. A `[` left open is
      found at the end.
   A halt word ends the code. -/
namespace BrainfuckBoard

inductive CompileError
  | unmatchedClose (line : Nat)
  | loopTooLong (line words : Nat)
  | unmatchedOpen (count : Nat)
deriving DecidableEq, Repr

/-- The farthest a forward jump reaches. -/
def maxJump : Nat := 15

/-- Between its brackets a loop holds at most this many words. -/
def maxLoopBody : Nat := maxJump - 2

def CompileError.message : CompileError → String
  | .unmatchedClose line => s!"unmatched ']' at line {line}"
  | .loopTooLong line words =>
    s!"loop body too long for a relative jump at line {line} ({words} words, max {maxJump})"
  | .unmatchedOpen count => s!"unmatched '[' ({count} open)"

/-- The largest count that one word of a command carries. -/
def Opcode.maxCount : Opcode → Nat
  | .right | .left => 15
  | .add | .sub => 31
  | .output | .input | .jumpZero | .jumpNonzero => 0

namespace Compiler

/-- The words for a run of a counted command: full ones first, then the rest. -/
def runWords (op : Opcode) (n : Nat) : List Word :=
  List.replicate (n / op.maxCount) (Word.encode op op.maxCount) ++
    if n % op.maxCount = 0 then [] else [Word.encode op (n % op.maxCount)]

/-- Code under construction. Stretches are kept newest word first: the one of
    the innermost open loop, and those around it from the inside out. -/
structure Draft where
  line : Nat := 1
  code : List Word := []
  around : List (List Word) := []
deriving DecidableEq, Repr

namespace Draft

def emit (d : Draft) (words : List Word) : Draft := { d with code := words.reverse ++ d.code }

def openLoop (d : Draft) : Draft := { d with code := [], around := d.code :: d.around }

/-- A loop body, both jumps around it, and the code before it. Newest first. -/
def closedLoop (body before : List Word) : List Word :=
  Word.encodeSigned .jumpNonzero (-(body.length + 1)) ::
    (body ++ Word.encodeSigned .jumpZero (body.length + 2) :: before)

def closeLoop (d : Draft) : Except CompileError Draft :=
  match d.around with
  | [] => .error (.unmatchedClose d.line)
  | before :: around =>
    if maxLoopBody < d.code.length then .error (.loopTooLong d.line (d.code.length + 2))
    else .ok { d with code := closedLoop d.code before, around }

def command (d : Draft) (op : Opcode) (n : Nat) : Except CompileError Draft :=
  match op with
  | .right | .left | .add | .sub => .ok (d.emit (runWords op n))
  | .output | .input => .ok (d.emit [Word.encode op 0])
  | .jumpZero => .ok d.openLoop
  | .jumpNonzero => d.closeLoop

/-- One run of the source. -/
def feed (d : Draft) (run : UInt8 × Nat) : Except CompileError Draft :=
  if run.1 = Text.newline then .ok { d with line := d.line + 1 }
  else match Opcode.ofByte? run.1 with
    | some op => d.command op run.2
    | none => .ok d

def finish (d : Draft) : Except CompileError (List Word) :=
  if d.around = [] then .ok (d.code.reverse ++ [Word.halt])
  else .error (.unmatchedOpen d.around.length)

end Draft

end Compiler

open Compiler in
/-- The words of a source text, or the first thing wrong with it. -/
def compile (source : Bytes) : Except CompileError (List Word) := do
  let d ← (Source.runs source).foldlM Draft.feed {}
  d.finish

end BrainfuckBoard
