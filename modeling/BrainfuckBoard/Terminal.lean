import BrainfuckBoard.Terminal.Listener
import BrainfuckBoard.Terminal.Sender
import BrainfuckBoard.Text.Bytes

/- The terminal at the far end of the wire. Both halves use the same bit period,
   which is at least two steps. The gap applies to frames that are queued from
   then on. -/
namespace BrainfuckBoard

structure Terminal where
  period : UInt32 := 16
  gap : UInt32 := 1
  sender : Sender := {}
  listener : Listener := {}
deriving DecidableEq, Repr

namespace Terminal

/-- Both halves start afresh; the period and the gap stay. -/
def reset (t : Terminal) : Terminal := { period := t.period, gap := t.gap }

def setPeriod (t : Terminal) (steps : UInt32) : Terminal :=
  { t with period := max 2 steps }.reset

def frame (t : Terminal) (byte : UInt8) (stop : Bool) : Frame :=
  { byte, stop, gap := t.gap.toNat }

def send (t : Terminal) (bytes : Bytes) : Terminal :=
  { t with sender := t.sender.enqueue (bytes.map fun byte => t.frame byte true) }

/-- One frame with a stop bit of the given level; a low one is an error on the
    wire. -/
def sendFrame (t : Terminal) (byte : UInt8) (stop : Bool) : Terminal :=
  { t with sender := t.sender.enqueue [t.frame byte stop] }

def line (t : Terminal) : Bool := t.sender.line

/-- The number of frames that have not gone out entirely. -/
def pending (t : Terminal) : Nat := t.sender.queue.length

def advance (t : Terminal) : Terminal := { t with sender := t.sender.advance t.period }

def sample (t : Terminal) (level : Bool) : Terminal :=
  { t with listener := t.listener.sample t.period level }

/-- One step with the line led back from the sending to the listening half. -/
def loopback (t : Terminal) : Terminal := t.advance.sample t.line

end Terminal

end BrainfuckBoard
