import BrainfuckBoard.Circuit.Transmitter

/- The sending half of the terminal. Frames wait in a queue and go out in order.
   A frame is a low start bit, eight data bits, least significant first, a stop
   bit of a chosen level and then as many high bits as the gap was long when the
   frame was queued. Each bit holds the line for one bit period. -/
namespace BrainfuckBoard

structure Frame where
  byte : UInt8
  stop : Bool := true
  gap : Nat
deriving DecidableEq, Repr

namespace Frame

/-- The number of bits, gap included. -/
def length (f : Frame) : Nat := 10 + f.gap

/-- The level of the line during the bit at `index`. -/
def level (f : Frame) (index : Nat) : Bool :=
  if index = 0 then false
  else if index ≤ 8 then byteBit f.byte (index - 1)
  else if index = 9 then f.stop
  else true

end Frame

/-- `bit` and `step` are the place in the first frame of the queue. -/
structure Sender where
  queue : List Frame := []
  bit : Nat := 0
  step : UInt32 := 0
deriving DecidableEq, Repr

namespace Sender

def enqueue (s : Sender) (frames : List Frame) : Sender := { s with queue := s.queue ++ frames }

theorem enqueue_nil (s : Sender) : s.enqueue [] = s := by rw [enqueue, List.append_nil]

def idle (s : Sender) : Bool := s.queue.isEmpty

/-- The level that the line is driven to in this step. -/
def line (s : Sender) : Bool :=
  match s.queue with
  | [] => true
  | frame :: _ => frame.level s.bit

/-- The end of a step, with `period` steps to a bit. -/
def advance (s : Sender) (period : UInt32) : Sender :=
  match s.queue with
  | [] => s
  | frame :: rest =>
    if s.step + 1 < period then { s with step := s.step + 1 }
    else if s.bit + 1 < frame.length then { s with bit := s.bit + 1, step := 0 }
    else { queue := rest }

end Sender

end BrainfuckBoard
