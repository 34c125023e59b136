import BrainfuckBoard.Circuit.BaudClock
import BrainfuckBoard.Circuit.Core
import BrainfuckBoard.Circuit.Loader
import BrainfuckBoard.Circuit.Receiver
import BrainfuckBoard.Circuit.Transmitter

/- The clocked parts of the board and the wires between them.
   In a step every part sees the outputs that the others had when the step
   began. A received byte goes to the loader in upload mode and to the program
   otherwise. The bit clock of the transmitter runs from the step in which a
   byte is handed over. -/
namespace BrainfuckBoard

/-- The input pins, sampled once in a step. `reset` is high while the board may
    run; `runStart` is a pulse; `halt` leads nowhere. -/
structure Pins where
  reset : Bool := true
  rx : Bool := true
  upload : Bool := false
  runStart : Bool := false
  halt : Bool := false
deriving DecidableEq, Repr

structure Chip where
  baud : BaudClock := {}
  receiver : Receiver := {}
  transmitter : Transmitter := {}
  loader : Loader := {}
  core : Core := .initial
deriving DecidableEq, Repr

namespace Chip

/-- Everything as it was at first, except the divisors of the baud clock. -/
def reset (c : Chip) : Chip := { baud := c.baud.reset }

/-- Where the byte of the receiver goes. -/
def route (c : Chip) (pins : Pins) : Route :=
  Route.select pins.upload c.receiver.valid c.receiver.data

/-- In upload mode a run is not started. -/
def coreInputs (c : Chip) (pins : Pins) : Core.Inputs :=
  { runStart := pins.runStart && !pins.upload
    sending := c.transmitter.busy
    received := (c.route pins).cpuByte?
    uploaded := c.loader.written? }

/-- The byte that is handed to the transmitter in this step. -/
def sent? (c : Chip) (pins : Pins) : Option UInt8 := (c.core.requests (c.coreInputs pins)).send

/-- The clock edge at the end of a step. -/
def clock (c : Chip) (pins : Pins) : Chip :=
  let sent := c.sent? pins
  { baud := c.baud.clock (c.transmitter.busy || sent.isSome)
    receiver := c.receiver.clock pins.rx c.baud.oversampleTick
    transmitter := c.transmitter.clock sent c.baud.bitTick
    loader := c.loader.clock pins.upload (c.route pins).loaderByte? programDepth
    core := c.core.clock (c.coreInputs pins) }

/-- What can be seen on the buses during the step, memories before the serial line. -/
def actions (c : Chip) (pins : Pins) : List BusAction :=
  let receives := if c.receiver.valid then [.receive c.receiver.data pins.upload] else []
  let errors := if c.receiver.frameError then [.framingError] else []
  c.core.actions (c.coreInputs pins) ++ receives ++ errors

end Chip

end BrainfuckBoard
