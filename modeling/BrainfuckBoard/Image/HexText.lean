import BrainfuckBoard.Text.Numeral

/- Programs written as hexadecimal bytes.
   1. A line ends at its first `#` or `;`, and what is left of it at its first
      `//`. Tokens stand between blanks.
   2. Commas and underscores in a token are dropped, and then one `0x` at its
      head if more than these two characters are left. A token of which nothing
      is left is skipped.
   3. What remains has to be hexadecimal digits of a value of at most 255. The
      first token that is not is reported with the number of its line.
   A text without any byte is an error as well. -/
namespace BrainfuckBoard.HexText

open Text

inductive Error
  | cannotOpen
  | notHex (token : Bytes) (line : Nat)
  | tooLong (token : Bytes) (line : Nat)
  | outOfRange (token : Bytes) (line : Nat)
  | noBytes
deriving DecidableEq, Repr

/-- The message for a file at `path`. -/
def Error.message (path : Bytes) : Error → Bytes
  | .cannotOpen => utf8 "cannot open '" ++ path ++ utf8 "'"
  | .notHex token line => utf8 "non-hex token '" ++ token ++ utf8 s!"' at line {line}"
  | .tooLong token line => utf8 "parse error for token '" ++ token ++ utf8 s!"' at line {line}"
  | .outOfRange token line => utf8 "byte out of range '" ++ token ++ utf8 s!"' at line {line}"
  | .noBytes => utf8 "no bytes read from '" ++ path ++ utf8 "'"

def beforeSlashes : Bytes → Bytes
  | 47 :: 47 :: _ => []
  | b :: s => b :: beforeSlashes s
  | [] => []

/-- The line without its comment. -/
def cutComment (line : Bytes) : Bytes :=
  beforeSlashes (line.takeWhile fun b => b != 35 && b != 59)

/-- A `0x` counts as a mark only if something follows it. -/
def cutMark : Bytes → Bytes
  | 48 :: x :: d :: s => if x == 120 || x == 88 then d :: s else 48 :: x :: d :: s
  | s => s

def clean (token : Bytes) : Bytes := cutMark (token.filter fun b => b != 44 && b != 95)

/-- The tokens of a line that are not empty, as they are read. -/
def lineTokens (line : Bytes) : List Bytes :=
  ((words (cutComment line)).map clean).filter (· ≠ [])

/-- All tokens, each with the number of its line, from 1. -/
def tokens (text : Bytes) : List (Bytes × Nat) :=
  ((lines text).zipIdx 1).flatMap fun (line, n) => (lineTokens line).map fun token => (token, n)

def tokenByte (token : Bytes × Nat) : Except Error UInt8 :=
  if !token.1.all isHexDigit then .error (.notHex token.1 token.2)
  else
    let value := hexValue token.1
    if maxNumeral < value then .error (.tooLong token.1 token.2)
    else if 255 < value then .error (.outOfRange token.1 token.2)
    else .ok (UInt8.ofNat value)

def read (text : Bytes) : Except Error Bytes := do
  let bytes ← (tokens text).mapM tokenByte
  if bytes = [] then .error .noBytes else .ok bytes

/-- Reads a file, of which nothing is there if it cannot be opened. -/
def readFile (content : Option Bytes) : Except Error Bytes :=
  match content with
  | none => .error .cannotOpen
  | some text => read text

end BrainfuckBoard.HexText
