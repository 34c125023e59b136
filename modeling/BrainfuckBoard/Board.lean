import BrainfuckBoard.Board.Timeline
import BrainfuckBoard.Circuit.Chip
import BrainfuckBoard.Circuit.ResetSynchronizer
import BrainfuckBoard.Terminal

/- The board: the chip with its pins and its reset, the terminal on the other end
   of the wire, and the timeline.
   `step` is one clock step. While the terminal is attached it drives the
   receiver's pin, and samples the transmitter's line after the clock edge. In
   reset the chip is held at its first state, and only the wire, the cycle count
   and the timeline go on. -/
namespace BrainfuckBoard

structure Board.Config where
  clockHz : UInt64 := 12000000
  baud : UInt32 := 115200
  traceLimit : Nat := 4096
deriving DecidableEq, Repr

structure Board where
  config : Board.Config
  pins : Pins := {}
  resetLine : ResetSynchronizer := .released
  chip : Chip := {}
  terminal : Terminal := {}
  attached : Bool := true
  /-- The steps since the last reset. The count is taken not to wrap; a counter of 64 bits
      would after 2 ^ 64 of them. -/
  cycles : Nat := 0
  timeline : Timeline
deriving DecidableEq, Repr

namespace Board

/-- The whole board except the terminal starts afresh. The pins keep their
    levels, but a run that was to start is forgotten. -/
def reset (b : Board) : Board :=
  { b with
    pins := { b.pins with runStart := false }
    resetLine := .released
    chip := b.chip.reset
    cycles := 0
    timeline := { limit := b.config.traceLimit } }

/-- New rates and a new limit; the terminal takes over the bit period. -/
def configure (b : Board) (config : Config) : Board :=
  let baud := BaudClock.ofRates config.clockHz config.baud
  { b with
    config
    chip := { b.chip with baud }
    terminal := b.terminal.setPeriod baud.bitDivisor }.reset

def ofConfig (config : Config) : Board :=
  ({ config, timeline := { limit := config.traceLimit } } : Board).configure config

/-- The pins that the chip sees in this step. -/
def drivenPins (b : Board) : Pins :=
  if b.attached then { b.pins with rx := b.terminal.line } else b.pins

/-- The chip after this step, given its reset. -/
def nextChip (b : Board) (inReset : Bool) : Chip :=
  if inReset then b.chip.reset else b.chip.clock b.drivenPins

/-- What is on the buses in this step, given the reset. -/
def events (b : Board) (inReset : Bool) : List BusEvent :=
  if inReset then []
  else (b.chip.actions b.drivenPins).map fun action =>
    { cycle := b.cycles, phase := b.chip.core.cpu.phase, action }

/-- The terminal after this step, given the level of the transmitter's line. -/
def nextTerminal (b : Board) (tx : Bool) : Terminal :=
  if b.attached then b.terminal.advance.sample tx else b.terminal

/-- The frame of this step, given the chip after it. -/
def traceFrame (b : Board) (inReset : Bool) (chip : Chip) : TraceFrame :=
  let cpu := chip.core.cpu
  { cycle := b.cycles
    pc := cpu.pc
    dp := cpu.dp
    cell := cpu.cell
    instr := cpu.instr
    phase := cpu.phase
    tx := chip.transmitter.line
    rx := b.drivenPins.rx
    events := b.events inReset }

/-- One clock step. -/
def step (b : Board) : Board :=
  let resetLine := b.resetLine.clock b.pins.reset
  let chip := b.nextChip resetLine.asserted
  { b with
    pins := { b.drivenPins with runStart := false }
    resetLine
    chip
    terminal := b.nextTerminal chip.transmitter.line
    cycles := b.cycles + 1
    timeline := b.timeline.record (b.traceFrame resetLine.asserted chip) }

/-- `n` clock steps. -/
def steps : Nat → Board → Board
  | 0, b => b
  | n + 1, b => steps n b.step

def pulseRunStart (b : Board) : Board := { b with pins := { b.pins with runStart := true } }

def setUpload (b : Board) (on : Bool) : Board := { b with pins := { b.pins with upload := on } }

/-- The registers of the processor. -/
def cpu (b : Board) : Cpu := b.chip.core.cpu

def halted (b : Board) : Bool := b.cpu.halted

/-- Queues bytes at the terminal. -/
def send (b : Board) (bytes : Bytes) : Board := { b with terminal := b.terminal.send bytes }

def resetTerminal (b : Board) : Board := { b with terminal := b.terminal.reset }

end Board

end BrainfuckBoard
