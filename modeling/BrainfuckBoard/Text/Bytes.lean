/- Text as the board's tools see it: a list of bytes. Program files and lines
   of input may hold any bytes; what the tools print themselves is UTF-8.
   Blanks are the space and the five control bytes from tab to carriage
   return. `fields` cuts at every separator and keeps empty stretches;
   `words` keeps the stretches between blanks that are not empty. -/
namespace BrainfuckBoard

abbrev Bytes := List UInt8

namespace Text

def utf8 (s : String) : Bytes := s.toUTF8.data.toList

def newline : UInt8 := 10
def space : UInt8 := 32

def isBlank (b : UInt8) : Bool := b == space || (9 ≤ b && b ≤ 13)

/-- The stretches between separators, one more than there are separators. -/
def fields (isSeparator : UInt8 → Bool) (s : Bytes) : List Bytes :=
  s.foldr (fun b cut =>
    if isSeparator b then [] :: cut
    else match cut with
      | [] => [[b]]
      | field :: rest => (b :: field) :: rest) [[]]

def lines (s : Bytes) : List Bytes := fields (· == newline) s

def words (s : Bytes) : List Bytes := (fields isBlank s).filter (· ≠ [])

/-- The first word and what follows it; the word is empty if only blanks are left. -/
def cutWord (s : Bytes) : Bytes × Bytes :=
  let t := s.dropWhile isBlank
  (t.takeWhile (!isBlank ·), t.dropWhile (!isBlank ·))

/-- ASCII letters in lower case, every other byte as it is. -/
def lower (s : Bytes) : Bytes := s.map fun b => if 65 ≤ b && b ≤ 90 then b + 32 else b

/-- The name with the given number, or a question mark if there is none. -/
def nameAt (names : List String) (number : Int) : String :=
  if number < 0 then "?" else names.getD number.toNat "?"

end Text

end BrainfuckBoard
