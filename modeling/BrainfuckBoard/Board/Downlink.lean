import BrainfuckBoard.Circuit.BaudClock
import BrainfuckBoard.Circuit.Receiver
import BrainfuckBoard.Terminal

/- The way from the terminal to the receiver by itself. The receiver is wired to the baud clock
   and to the terminal's line as it is on the board; the terminal has a bit period of its own. -/
namespace BrainfuckBoard

structure Downlink where
  terminal : Terminal := {}
  baud : BaudClock := {}
  receiver : Receiver := {}
deriving DecidableEq, Repr

namespace Downlink

/-- One step, before which bytes may be sent. The receiver sees what the others put out when the
    step began. -/
def clock (s : Downlink) (bytes : Bytes) (sending : Bool) : Downlink :=
  let terminal := s.terminal.send bytes
  { terminal := terminal.advance
    baud := s.baud.clock sending
    receiver := s.receiver.clock terminal.line s.baud.oversampleTick }

/-- `n` steps, if `sends k` is sent before step `k`, and the bit counter is enabled in the steps
    that `sending` gives. -/
def run (s : Downlink) (sends : Nat → Bytes) (sending : Nat → Bool) : Nat → Downlink
  | 0 => s
  | n + 1 => (s.run sends sending n).clock (sends n) (sending n)

end Downlink

end BrainfuckBoard
