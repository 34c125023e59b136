/- The listening half of the terminal. It counts steps from the fall of the line
   and looks at the middle of every bit: the start bit, eight data bits and the
   stop bit. A start bit that is high by then was a glitch. After a stop bit
   that is low the line has to be high once before a new frame can start. The
   step counter is 32 bits wide. -/
namespace BrainfuckBoard

namespace Listener

inductive Phase
  | idle
  | blocked
  | receiving (count : UInt32) (shift : UInt8)
deriving DecidableEq, Repr

end Listener

structure Listener where
  received : Array UInt8 := #[]
  /-- The frames with a low stop bit. Like the steps of the board they are taken to be fewer
      than 2 ^ 64, so that the count does not wrap. -/
  framingErrors : Nat := 0
  phase : Listener.Phase := .idle
deriving DecidableEq, Repr

namespace Listener

/-- No frame is being received. -/
def idle (l : Listener) : Bool :=
  match l.phase with
  | .receiving _ _ => false
  | .idle | .blocked => true

/-- The bit whose middle is `count` steps after the fall of the line: 0 for the
    start bit, 1 to 8 for the data bits and 9 for the stop bit. -/
def slot? (count period : UInt32) : Option UInt32 :=
  let half := period / 2
  if half ≤ count ∧ (count - half) % period = 0 then some ((count - half) / period) else none

/-- The byte with the level put in at the data bit of the given slot. -/
def setBit (shift : UInt8) (slot : UInt32) (level : Bool) : UInt8 :=
  if level then shift ||| (1 <<< (slot - 1).toUInt8) else shift

/-- A look at the line in the middle of a bit. -/
def look (l : Listener) (count : UInt32) (shift : UInt8) (slot : UInt32) (level : Bool) : Listener :=
  if slot = 0 then { l with phase := if level then .idle else .receiving count shift }
  else if slot ≤ 8 then { l with phase := .receiving count (setBit shift slot level) }
  else if level then { l with received := l.received.push shift, phase := .idle }
  else { l with framingErrors := l.framingErrors + 1, phase := .blocked }

/-- The end of a step in which the line was at `level`, with `period` steps to a
    bit. -/
def sample (l : Listener) (period : UInt32) (level : Bool) : Listener :=
  match l.phase with
  | .idle => if level then l else { l with phase := .receiving 0 0 }
  | .blocked => if level then { l with phase := .idle } else l
  | .receiving count shift =>
    let count := count + 1
    match slot? count period with
    | some slot => l.look count shift slot level
    | none => { l with phase := .receiving count shift }

end Listener

end BrainfuckBoard
