import BrainfuckBoard.Board
import BrainfuckBoard.Text.Numeral

/- The options a session is started with. `--clock`, `--baud` and `--trace` take
   a decimal number, the first two a positive one; an argument that does not
   start with a dash names the program to load, and the last one counts. Reading
   stops at the first argument that is wrong or asks for help. -/
namespace BrainfuckBoard

structure Options where
  config : Board.Config := {}
  program : Bytes := []
deriving DecidableEq, Repr

namespace Options

open Text

/-- Why there is no session to start. -/
inductive Refusal
  | helpWanted
  | misused
deriving DecidableEq, Repr

def Refusal.status : Refusal → Nat
  | helpWanted => 0
  | misused => 2

def usage : String := "usage: bfsim [--clock HZ] [--baud RATE] [--trace FRAMES] [PROGRAM]\n"

/-- The largest rate that fits into 32 bits. -/
def maxBaud : Nat := 4294967295

def positive? (max : Nat) (s : Bytes) : Option Nat := (decimal? max s).filter (0 < ·)

def setClock (o : Options) (value : Bytes) : Option Options :=
  (positive? maxNumeral value).map fun n =>
    { o with config := { o.config with clockHz := UInt64.ofNat n } }

def setBaud (o : Options) (value : Bytes) : Option Options :=
  (positive? maxBaud value).map fun n =>
    { o with config := { o.config with baud := UInt32.ofNat n } }

def setTrace (o : Options) (value : Bytes) : Option Options :=
  (decimal? maxNumeral value).map fun n => { o with config := { o.config with traceLimit := n } }

/-- The option an argument names, if it takes a value. -/
def setter? (arg : Bytes) : Option (Options → Bytes → Option Options) :=
  if arg = utf8 "--clock" then some setClock
  else if arg = utf8 "--baud" then some setBaud
  else if arg = utf8 "--trace" then some setTrace
  else none

/-- An argument that stands alone. -/
def single (o : Options) (arg : Bytes) : Except Refusal Options :=
  if arg = utf8 "-h" ∨ arg = utf8 "--help" then .error .helpWanted
  else if arg.head? = some 45 then .error .misused
  else .ok { o with program := arg }

def read (o : Options) : List Bytes → Except Refusal Options
  | [] => .ok o
  | [arg] => match setter? arg with
    | some _ => .error .misused
    | none => o.single arg
  | arg :: value :: rest => match setter? arg with
    | some set => match set o value with
      | some o => o.read rest
      | none => .error .misused
    | none => match o.single arg with
      | .ok o => o.read (value :: rest)
      | .error refusal => .error refusal

end Options

end BrainfuckBoard
