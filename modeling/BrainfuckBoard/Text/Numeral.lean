import BrainfuckBoard.Text.Bytes

/- Numbers in text.
   1. `hexByte` writes a byte as two lower-case hexadecimal digits.
   2. `decimal?` reads a whole text as an unsigned decimal up to a bound.
   3. `count` reads the number at the head of a command's remainder, and falls
      back on a default where there is no positive one.
   4. `address?` reads a hexadecimal word the lenient way of an address: sign,
      `0x` and trailing junk are allowed, minus counts down from 2^64. -/
namespace BrainfuckBoard.Text

def isDigit (b : UInt8) : Bool := 48 ≤ b && b ≤ 57

def hexDigit? (b : UInt8) : Option Nat :=
  if isDigit b then some (b.toNat - 48)
  else if 97 ≤ b && b ≤ 102 then some (b.toNat - 87)
  else if 65 ≤ b && b ≤ 70 then some (b.toNat - 55)
  else none

def isHexDigit (b : UInt8) : Bool := (hexDigit? b).isSome

def decimalValue (digits : Bytes) : Nat := digits.foldl (fun n b => 10 * n + (b.toNat - 48)) 0

def hexValue (digits : Bytes) : Nat := digits.foldl (fun n b => 16 * n + (hexDigit? b).getD 0) 0

/-- The largest number of sixty-four bits; no text stands for a larger one. -/
def maxNumeral : Nat := 18446744073709551615

def hexByte (b : UInt8) : String :=
  String.ofList [Nat.digitChar (b.toNat / 16), Nat.digitChar (b.toNat % 16)]

/-- Digits only, at least one, and a value of at most `max`. -/
def decimal? (max : Nat) (s : Bytes) : Option Nat :=
  if s ≠ [] ∧ s.all isDigit ∧ decimalValue s ≤ min max maxNumeral then some (decimalValue s)
  else none

/-- A sign at the head of a numeral, and what follows it. -/
def cutSign : Bytes → Bool × Bytes
  | 45 :: s => (true, s)
  | 43 :: s => (false, s)
  | s => (false, s)

/-- The number of steps, frames or words a command asks for. Nothing at all,
    junk, zero and negative numbers give `fallback`; digits beyond `max` give
    `max`. -/
def count (max fallback : Nat) (s : Bytes) : Nat :=
  let (negative, t) := cutSign (s.dropWhile isBlank)
  let n := min max (decimalValue (t.takeWhile isDigit))
  if negative || n == 0 then fallback else n

/-- A `0x` is skipped only where a digit follows it. -/
def cutHexMark : Bytes → Bytes
  | 48 :: x :: d :: s => if (x == 120 || x == 88) && isHexDigit d then d :: s else 48 :: x :: d :: s
  | s => s

def address? (s : Bytes) : Option UInt64 :=
  let (negative, t) := cutSign s
  let digits := (cutHexMark t).takeWhile isHexDigit
  if digits = [] ∨ maxNumeral < hexValue digits then none
  else
    let n := UInt64.ofNat (hexValue digits)
    some (if negative then 0 - n else n)

end BrainfuckBoard.Text
