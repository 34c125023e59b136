import BrainfuckBoard.Circuit.Receiver
import BrainfuckBoard.Circuit.Transmitter

/- The part of a frame that a receiver or a transmitter is in, as it is shown. -/
namespace BrainfuckBoard

inductive LinePhase
  | idle | start | data | stop
deriving DecidableEq, Repr

namespace LinePhase

/-- In the order of their numbers. -/
def all : List LinePhase := [idle, start, data, stop]

def name : LinePhase → String
  | idle => "Idle"
  | start => "Start"
  | data => "Data"
  | stop => "Stop"

end LinePhase

/-- The receiver is still in the stop bit after it has looked at it. -/
def Receiver.linePhase (r : Receiver) : LinePhase :=
  match r.phase with
  | .idle => .idle
  | .start _ => .start
  | .bits _ _ _ => .data
  | .stop _ _ | .rest _ => .stop

def Transmitter.linePhase (t : Transmitter) : LinePhase :=
  match t.phase with
  | .idle => .idle
  | .start _ => .start
  | .bits _ _ => .data
  | .stop => .stop

end BrainfuckBoard
