import BrainfuckBoard.Circuit.BusEvent
import BrainfuckBoard.Circuit.Ram
import BrainfuckBoard.Image.Stock

/- The core: the processor between its two memories. The processor reads the
   program store and has the tape to itself; the program store is written from
   outside. A step sees what the memories put out at its beginning, and its
   requests are carried out at the clock edge that ends it. -/
namespace BrainfuckBoard

abbrev programDepth : Nat := 32
abbrev tapeDepth : Nat := 16

structure Core where
  cpu : Cpu := {}
  program : Ram programDepth := .ofImage Image.stock
  tape : Ram tapeDepth := .blank tapeDepth
deriving DecidableEq, Repr

/-- The signals of a step. `uploaded` is the address and the value of a word that
    is written to the program store in this step. -/
structure Core.Inputs where
  runStart : Bool := false
  sending : Bool := false
  received : Option UInt8 := none
  uploaded : Option (UInt8 × UInt8) := none
deriving DecidableEq, Repr

namespace Core

/-- With the stock program and a blank tape. -/
def initial : Core := {}

def cpuInputs (c : Core) (i : Inputs) : Cpu.Inputs :=
  { runStart := i.runStart
    programOut := c.program.out
    tapeOut := c.tape.out
    sending := i.sending
    received := i.received }

/-- The processor's next registers and its requests in this step. -/
def cpuStep (c : Core) (i : Inputs) : Cpu × Cpu.Requests :=
  c.cpu.step (c.cpuInputs i) programDepth tapeDepth

def requests (c : Core) (i : Inputs) : Cpu.Requests := (c.cpuStep i).2

/-- The program store with this step's requests pending. -/
def programAsked (c : Core) (i : Inputs) : Ram programDepth :=
  let store := match i.uploaded with
    | some (addr, value) => c.program.requestWrite addr.toNat value
    | none => c.program
  match (c.requests i).programRead with
  | some addr => store.requestRead addr.toNat
  | none => store

/-- The tape with this step's requests pending. -/
def tapeAsked (c : Core) (i : Inputs) : Ram tapeDepth :=
  let tape := match (c.requests i).tapeWrite with
    | some (addr, value) => c.tape.requestWrite addr.toNat value
    | none => c.tape
  match (c.requests i).tapeRead with
  | some addr => tape.requestRead addr.toNat
  | none => tape

/-- The clock edge at the end of a step. -/
def clock (c : Core) (i : Inputs) : Core :=
  { cpu := (c.cpuStep i).1
    program := (c.programAsked i).clock
    tape := (c.tapeAsked i).clock }

/-- What the step does to the memories and hands to the transmitter. A read shows
    the cell as it was when the step began. -/
def actions (c : Core) (i : Inputs) : List BusAction :=
  let asked := c.requests i
  let uploads := i.uploaded.toList.map fun (addr, value) => .upload addr value
  let fetches := asked.programRead.toList.map fun addr =>
    .fetch addr (c.program.peek addr.toNat)
  let writes := asked.tapeWrite.toList.map fun (addr, value) => .cellWrite addr value
  let reads := asked.tapeRead.toList.map fun addr => .cellRead addr (c.tape.peek addr.toNat)
  let sends := asked.send.toList.map .send
  uploads ++ fetches ++ writes ++ reads ++ sends

end Core

end BrainfuckBoard
