import BrainfuckBoard.Circuit.BaudClock
import BrainfuckBoard.Circuit.Receiver
import BrainfuckBoard.Circuit.Transmitter

/- The serial parts of the chip by themselves, with the line led back from the transmitter
   to the receiver. They are wired to the baud clock as they are in the chip. -/
namespace BrainfuckBoard

structure SerialLoop where
  baud : BaudClock := {}
  transmitter : Transmitter := {}
  receiver : Receiver := {}
deriving DecidableEq, Repr

namespace SerialLoop

/-- One step, in which a byte may be offered. Each part sees what the others put out when the
    step began. -/
def clock (s : SerialLoop) (offered : Option UInt8) : SerialLoop :=
  { baud := s.baud.clock (s.transmitter.busy || offered.isSome)
    transmitter := s.transmitter.clock offered s.baud.bitTick
    receiver := s.receiver.clock s.transmitter.line s.baud.oversampleTick }

/-- `n` steps, if `offers k` is what is offered in step `k`. -/
def run (s : SerialLoop) (offers : Nat → Option UInt8) : Nat → SerialLoop
  | 0 => s
  | n + 1 => (s.run offers n).clock (offers n)

end SerialLoop

end BrainfuckBoard
