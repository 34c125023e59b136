import BrainfuckBoard.Instruction.Ring
import BrainfuckBoard.Instruction.Word

/- The processor. An instruction takes several steps.
   1. Fetch asks for the word at `pc`; the store puts it out one step later,
      and it is then kept in `instr`. The halt word ends the run.
   2. Commands that look at the current cell read it the same way and keep it
      in `cell`.
   3. Execute moves, changes the cell, jumps, sends or receives. Output waits
      until the transmitter is free, input until a byte arrives.
   A step depends on the registers and the inputs only. Besides the next
   registers it yields what the processor asks of its surroundings. -/
namespace BrainfuckBoard

namespace Cpu

inductive Phase
  | idle | fetch | waitFetch | decode | readCell | waitCell | execute | writeCell
  | waitSend | waitReceive | halt
deriving DecidableEq, Repr

namespace Phase

/-- In the order of their numbers. -/
def all : List Phase :=
  [idle, fetch, waitFetch, decode, readCell, waitCell, execute, writeCell,
    waitSend, waitReceive, halt]

def name : Phase → String
  | idle => "Idle"
  | fetch => "Fetch"
  | waitFetch => "WaitFetch"
  | decode => "Decode"
  | readCell => "ReadCell"
  | waitCell => "WaitCell"
  | execute => "Execute"
  | writeCell => "WriteCell"
  | waitSend => "WaitTx"
  | waitReceive => "WaitRx"
  | halt => "Halt"

def shortName : Phase → String
  | idle => "IDL"
  | fetch => "FET"
  | waitFetch => "WFE"
  | decode => "DEC"
  | readCell => "RDC"
  | waitCell => "WCL"
  | execute => "EXE"
  | writeCell => "WRC"
  | waitSend => "WTX"
  | waitReceive => "WRX"
  | halt => "HLT"

end Phase

/-- The signals at the start of a step. `received` is a byte that has just
    arrived for the program. -/
structure Inputs where
  runStart : Bool := false
  programOut : UInt8 := 0
  tapeOut : UInt8 := 0
  sending : Bool := false
  received : Option UInt8 := none
deriving DecidableEq, Repr

/-- What the processor asks for during a step. -/
structure Requests where
  programRead : Option UInt8 := none
  tapeRead : Option UInt8 := none
  tapeWrite : Option (UInt8 × UInt8) := none
  send : Option UInt8 := none
deriving DecidableEq, Repr

end Cpu

structure Cpu where
  phase : Cpu.Phase := .idle
  pc : UInt8 := 0
  dp : UInt8 := 0
  instr : Word := 0
  cell : UInt8 := 0
  held : UInt8 := 0
deriving DecidableEq, Repr

namespace Cpu

def busy (c : Cpu) : Bool := c.phase != .idle && c.phase != .halt

def halted (c : Cpu) : Bool := c.phase == .halt

/-- The address `move` words on from the current one. -/
def target (c : Cpu) (move : Int) (programDepth : Nat) : UInt8 :=
  ringMove c.pc.toNat move programDepth

/-- A byte has arrived: it goes to the current cell. -/
def takeInput (c : Cpu) (byte : UInt8) (programDepth : Nat) : Cpu × Requests :=
  ({ c with cell := byte, pc := c.target 1 programDepth, phase := .writeCell },
    { tapeWrite := some (c.dp, byte) })

/-- The transmitter is free: the byte is sent. -/
def startOutput (c : Cpu) (byte : UInt8) (programDepth : Nat) : Cpu × Requests :=
  ({ c with pc := c.target 1 programDepth, phase := .fetch }, { send := some byte })

def move (c : Cpu) (offset : Int) (programDepth tapeDepth : Nat) : Cpu × Requests :=
  ({ c with
      dp := ringMove c.dp.toNat offset tapeDepth
      pc := c.target 1 programDepth
      phase := .fetch }, {})

def changeCell (c : Cpu) (value : UInt8) (programDepth : Nat) : Cpu × Requests :=
  ({ c with cell := value, pc := c.target 1 programDepth, phase := .writeCell },
    { tapeWrite := some (c.dp, value) })

def jump (c : Cpu) (taken : Bool) (programDepth : Nat) : Cpu × Requests :=
  ({ c with
      pc := c.target (if taken then c.instr.signedArg else 1) programDepth
      phase := .fetch }, {})

def execute (c : Cpu) (i : Inputs) (programDepth tapeDepth : Nat) : Cpu × Requests :=
  match c.instr.opcode with
  | .right => c.move c.instr.signedArg programDepth tapeDepth
  | .left => c.move (-c.instr.signedArg) programDepth tapeDepth
  | .add => c.changeCell (c.cell + c.instr.arg) programDepth
  | .sub => c.changeCell (c.cell - c.instr.arg) programDepth
  | .output =>
    let c := { c with held := c.cell }
    if i.sending then ({ c with phase := .waitSend }, {}) else c.startOutput c.cell programDepth
  | .input =>
    match i.received with
    | some byte => c.takeInput byte programDepth
    | none => ({ c with phase := .waitReceive }, {})
  | .jumpZero => c.jump (c.cell == 0) programDepth
  | .jumpNonzero => c.jump (c.cell != 0) programDepth

/-- The phase after a word has been decoded. -/
def decoded (w : Word) : Phase :=
  if w.isHalt then .halt
  else if w.opcode.readsCell then .readCell
  else .execute

/-- One step, with a program store and a tape of the given depths. -/
def step (c : Cpu) (i : Inputs) (programDepth tapeDepth : Nat) : Cpu × Requests :=
  match c.phase with
  | .idle => if i.runStart then ({ c with pc := 0, phase := .fetch }, {}) else (c, {})
  | .fetch => ({ c with phase := .waitFetch }, { programRead := some c.pc })
  | .waitFetch => ({ c with instr := i.programOut, phase := .decode }, {})
  | .decode => ({ c with phase := decoded c.instr }, {})
  | .readCell => ({ c with phase := .waitCell }, { tapeRead := some c.dp })
  | .waitCell => ({ c with cell := i.tapeOut, phase := .execute }, {})
  | .execute => c.execute i programDepth tapeDepth
  | .writeCell => ({ c with phase := .fetch }, {})
  | .waitSend => if i.sending then (c, {}) else c.startOutput c.held programDepth
  | .waitReceive =>
    match i.received with
    | some byte => c.takeInput byte programDepth
    | none => (c, {})
  | .halt => (c, {})

end Cpu

end BrainfuckBoard
