/- The sending end of a serial wire, paced by the ticks of the bit clock. A byte
   is accepted when the transmitter is idle; the line falls at once, and each
   tick after that puts the next bit on it, least significant first. The stop
   bit is high, and so is the line between bytes. -/
namespace BrainfuckBoard

/-- The bit at `index`, from the least significant one. -/
def byteBit (byte : UInt8) (index : Nat) : Bool := byte.toNat.testBit index

namespace Transmitter

inductive Phase
  | idle
  | start (byte : UInt8)
  | bits (byte : UInt8) (index : Nat)
  | stop
deriving DecidableEq, Repr

end Transmitter

structure Transmitter where
  line : Bool := true
  busy : Bool := false
  phase : Transmitter.Phase := .idle
deriving DecidableEq, Repr

namespace Transmitter

def tick (t : Transmitter) : Transmitter :=
  match t.phase with
  | .idle => t
  | .start byte => { t with line := byteBit byte 0, phase := .bits byte 0 }
  | .bits byte i =>
    if i = 7 then { t with line := true, phase := .stop }
    else { t with line := byteBit byte (i + 1), phase := .bits byte (i + 1) }
  | .stop => { t with busy := false, phase := .idle }

/-- One step. A byte offered while another is being sent is not taken, and a
    tick in the step that takes a byte is not counted. -/
def clock (t : Transmitter) (offered : Option UInt8) (ticked : Bool) : Transmitter :=
  if t.phase = .idle then
    match offered with
    | some byte => { line := false, busy := true, phase := .start byte }
    | none => t
  else if ticked then t.tick
  else t

end Transmitter

end BrainfuckBoard
