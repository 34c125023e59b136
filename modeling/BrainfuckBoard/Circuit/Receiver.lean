/- The receiving end of a serial wire: eight data bits, least significant first,
   between a low start bit and a high stop bit.
   1. The line passes two registers, so a step looks at the level of two steps
      before.
   2. The receiver is paced by oversample ticks, sixteen to a bit. It looks at
      the start bit eight ticks after the line fell, and at each bit after that
      sixteen ticks later.
   3. A start bit that is high again by then was a glitch. A stop bit that is
      low is a framing error, and the byte is dropped.
   4. Seven ticks after it looked at the stop bit the receiver is idle again.
   `valid` and `frameError` last one step; `data` keeps the last good byte. -/
namespace BrainfuckBoard

namespace Receiver

/-- `ticks` counts since the last look at the line, or since the line fell. -/
inductive Phase
  | idle
  | start (ticks : Nat)
  | bits (index ticks : Nat) (shift : UInt8)
  | stop (ticks : Nat) (byte : UInt8)
  | rest (ticks : Nat)
deriving DecidableEq, Repr

/-- Oversample ticks to a bit. -/
def ticksPerBit : Nat := 16

/-- Ticks before the last one to the middle of the start bit. -/
def startTicks : Nat := 7

/-- Ticks before the last one of the rest of the stop bit. -/
def restTicks : Nat := 6

end Receiver

structure Receiver where
  data : UInt8 := 0
  valid : Bool := false
  frameError : Bool := false
  busy : Bool := false
  phase : Receiver.Phase := .idle
  first : Bool := true
  second : Bool := true
deriving DecidableEq, Repr

namespace Receiver

/-- The byte that this step hands on, if there is one. -/
def byte? (r : Receiver) : Option UInt8 := if r.valid then some r.data else none

/-- The bit comes in at the top; after eight of them the first is at the bottom. -/
def shiftIn (shift : UInt8) (level : Bool) : UInt8 :=
  (shift >>> 1) ||| (if level then 128 else 0)

/-- What a tick does, at the given level of the line. -/
def tick (r : Receiver) (level : Bool) : Receiver :=
  match r.phase with
  | .idle => r
  | .start n =>
    if n = startTicks then
      if level then { r with phase := .idle, busy := false } else { r with phase := .bits 0 0 0 }
    else { r with phase := .start (n + 1) }
  | .bits i n shift =>
    if n = ticksPerBit - 1 then
      let shift := shiftIn shift level
      { r with phase := if i = 7 then .stop 0 shift else .bits (i + 1) 0 shift }
    else { r with phase := .bits i (n + 1) shift }
  | .stop n byte =>
    if n = ticksPerBit - 1 then
      if level then { r with phase := .rest 0, data := byte, valid := true }
      else { r with phase := .rest 0, frameError := true }
    else { r with phase := .stop (n + 1) byte }
  | .rest n =>
    if n = restTicks then { r with phase := .idle, busy := false }
    else { r with phase := .rest (n + 1) }

/-- One step: `line` enters the registers, and the level that leaves them is
    looked at. A fall of the line is noticed in any step, the rest on ticks. -/
def clock (r : Receiver) (line ticked : Bool) : Receiver :=
  let level := r.second
  let r := { r with first := line, second := r.first, valid := false, frameError := false }
  if r.phase = .idle then
    if level then r else { r with phase := .start 0, busy := true }
  else if ticked then r.tick level
  else r

end Receiver

end BrainfuckBoard
