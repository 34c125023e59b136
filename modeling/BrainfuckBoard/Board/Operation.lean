import BrainfuckBoard.Board.Run

/- All that can be done to a board from outside, as data, so that a history of a
   board is a list of operations. `perform` carries one out; the operations with
   a budget also say whether they reached their end. -/
namespace BrainfuckBoard

/-- The pins that hold a level. -/
inductive Pin
  | reset | rx | upload | halt
deriving DecidableEq, Repr

def Pins.set (pins : Pins) (pin : Pin) (level : Bool) : Pins :=
  match pin with
  | .reset => { pins with reset := level }
  | .rx => { pins with rx := level }
  | .upload => { pins with upload := level }
  | .halt => { pins with halt := level }

namespace Board

inductive Operation
  | step (n : Nat)
  | pulseRunStart
  | stepInstruction (budget : Nat)
  | runUntilHalt (budget : Nat)
  | drain (budget : Nat)
  | upload (words : Bytes) (budget : Nat)
  | waitOutput (n budget : Nat)
  | settle (budget : Nat)
  | send (bytes : Bytes)
  | sendFrame (byte : UInt8) (stop : Bool)
  | setPin (pin : Pin) (level : Bool)
  | attach (on : Bool)
  | reset
  | resetTerminal
  | setPeriod (steps : UInt32)
  | setGap (bits : UInt32)
  | configure (config : Config)
  | loadProgram (words : Bytes)
  | loadTape (bytes : Bytes)
deriving DecidableEq, Repr

def setGap (b : Board) (bits : UInt32) : Board := { b with terminal := { b.terminal with gap := bits } }

/-- Puts words into the program store, without the wire. -/
def loadProgram (b : Board) (words : Bytes) : Board :=
  let core := b.chip.core
  let program := Ram.ofImage (Ram.image programDepth words) core.program.nonempty
  { b with chip := { b.chip with core := { core with program } } }

def loadTape (b : Board) (bytes : Bytes) : Board :=
  let core := b.chip.core
  let tape := Ram.ofImage (Ram.image tapeDepth bytes) core.tape.nonempty
  { b with chip := { b.chip with core := { core with tape } } }

/-- An operation without a result. -/
def done (b : Board) : Option Bool × Board := (none, b)

def perform (b : Board) : Operation → Option Bool × Board
  | .step n => done (b.steps n)
  | .pulseRunStart => done b.pulseRunStart
  | .stepInstruction budget => (b.stepInstruction budget).map some id
  | .runUntilHalt budget => (b.runUntilHalt budget).map some id
  | .drain budget => (b.drain budget).map some id
  | .upload words budget => (b.upload words budget).map some id
  | .waitOutput n budget => done (b.waitOutput n budget)
  | .settle budget => done (b.settle budget)
  | .send bytes => done (b.send bytes)
  | .sendFrame byte stop => done { b with terminal := b.terminal.sendFrame byte stop }
  | .setPin pin level => done { b with pins := b.pins.set pin level }
  | .attach on => done { b with attached := on }
  | .reset => done b.reset
  | .resetTerminal => done b.resetTerminal
  | .setPeriod steps => done { b with terminal := b.terminal.setPeriod steps }
  | .setGap bits => done (b.setGap bits)
  | .configure config => done (b.configure config)
  | .loadProgram words => done (b.loadProgram words)
  | .loadTape bytes => done (b.loadTape bytes)

end Board

end BrainfuckBoard
