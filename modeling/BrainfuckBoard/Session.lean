import BrainfuckBoard.Board.Run
import BrainfuckBoard.Session.Command
import BrainfuckBoard.Session.Report

/- A session: a board, and breakpoints at addresses of its program store.
   `respond` carries out one command. It yields the next session and what goes
   to the two output streams. A load command that fails before its upload leaves
   the session as it was. -/
namespace BrainfuckBoard

/-- Text for the two output streams. -/
structure Console where
  out : Bytes := []
  err : Bytes := []
deriving DecidableEq, Repr

namespace Console

def append (a b : Console) : Console := ⟨a.out ++ b.out, a.err ++ b.err⟩

instance : Append Console := ⟨append⟩

def print (s : String) : Console := { out := Text.utf8 s }

end Console

/-- Breakpoints are a set, and a set has no order of its own: that they are kept and listed in
    ascending order, without repetition, is a choice made here. -/
structure Session where
  board : Board
  breaks : List UInt8 := []
deriving DecidableEq, Repr

namespace Session

/-- Clock steps that one instruction may take before it counts as waiting. -/
def instructionBudget : Nat := 1000000

/-- Clock steps of a run until it is given up. -/
def runBudget : Nat := 10000000

def uploadBudget : Nat := 10000000

def insertBreak (addr : UInt8) : List UInt8 → List UInt8
  | [] => [addr]
  | a :: rest =>
    if addr < a then addr :: a :: rest
    else if addr = a then a :: rest
    else a :: insertBreak addr rest

/-- How a run came to its end. -/
inductive RunEnd
  | done
  | waiting
  | breakpoint
  | expired
deriving DecidableEq, Repr

/-- Up to `n` instructions. A breakpoint counts once an instruction has led to
    it. -/
def runInstructions (breaks : List UInt8) : Nat → Board → RunEnd × Board
  | 0, b => (.done, b)
  | n + 1, b =>
    if b.halted then (.done, b)
    else
      match b.stepInstruction instructionBudget with
      | (false, b) => (.waiting, b)
      | (true, b) =>
        if breaks.contains b.cpu.pc then (.breakpoint, b)
        else runInstructions breaks n b

/-- The next instruction is one with a breakpoint. -/
def atBreak (breaks : List UInt8) (b : Board) : Bool :=
  b.cpu.phase == .fetch && breaks.contains b.cpu.pc

/-- Steps to a halt or a breakpoint, and gives up after `budget` steps. -/
def runOn (breaks : List UInt8) : Nat → Board → RunEnd × Board
  | 0, b => (if b.halted then .done else .expired, b)
  | budget + 1, b =>
    if b.halted then (.done, b)
    else if atBreak breaks b then (.breakpoint, b)
    else runOn breaks budget b.step

/-- A breakpoint at the place where the run begins does not stop it. -/
def go (breaks : List UInt8) (b : Board) : RunEnd × Board :=
  if b.halted then (.done, b) else runOn breaks (runBudget - 1) b.step

/-- The remark on how a run ended. -/
def remark (ending : RunEnd) (b : Board) : String :=
  match ending with
  | .done => ""
  | .waiting => s!"* still waiting (state {b.cpu.phase.name})\n"
  | .breakpoint => s!"* Breakpoint hit at PC={Text.hexByte b.cpu.pc}\n"
  | .expired => s!"* watchdog expired (state {b.cpu.phase.name})\n"

/-- The session with its board stepped, a remark and the registers. -/
def shown (s : Session) (note : String) (b : Board) : Session × Console :=
  ({ s with board := b }, .print (note ++ Report.registers b))

def stepInstruction (s : Session) : Session × Console :=
  if s.board.halted then s.shown "halted\n" s.board
  else
    match s.board.stepInstruction instructionBudget with
    | (true, b) => s.shown "" b
    | (false, b) => s.shown (remark .waiting b) b

/-- Afresh, with the stock program and a terminal that has received nothing. -/
def resetBoard (b : Board) : Board := b.reset.resetTerminal

def complaint (kind : FileKind) (path : Bytes) (error : LoadError) : Console :=
  { err := Text.utf8 s!"[{kind.command}] " ++ error.message kind path ++ Text.utf8 "\n" }

/-- Resets the board and uploads the program in a file. -/
def loadProgram (b : Board) (kind : FileKind) (content : Option Bytes) :
    Except LoadError Nat × Board :=
  match kind.program content with
  | .error error => (.error error, b)
  | .ok words =>
    match (resetBoard b).upload words uploadBudget with
    | (true, b) => (.ok words.length, b)
    | (false, b) => (.error .incomplete, b)

/-- What a successful load says. -/
def loaded (kind : FileKind) (words : Nat) : Console :=
  .print s!"[{kind.command}] uploaded {words} words\n"

def load (s : Session) (kind : FileKind) (path : Bytes) (content : Option Bytes) :
    Session × Console :=
  match loadProgram s.board kind content with
  | (.ok words, b) =>
    ({ s with board := b }, loaded kind words ++ .print (Report.registers b))
  | (.error error, b) => ({ s with board := b }, complaint kind path error)

def queue (s : Session) (verb : String) (bytes : Bytes) : Session × Console :=
  ({ s with board := s.board.send bytes }, .print s!"[{verb}] queued {bytes.length} bytes\n")

/-- Carries out a command; `content` is what is in the file that it needs. -/
def respond (s : Session) (command : Command) (content : Option Bytes) : Session × Console :=
  match command with
  | .blank | .quit | .sleep _ => (s, {})
  | .help => (s, .print Report.help)
  | .stepInstruction => s.stepInstruction
  | .stepClock n => s.shown "" (s.board.steps n)
  | .runInstructions n =>
    let (ending, b) := runInstructions s.breaks n s.board
    s.shown (remark ending b) b
  | .go =>
    let (ending, b) := go s.breaks s.board
    s.shown (remark ending b) b
  | .start => s.shown "" s.board.pulseRunStart.step
  | .registers => (s, .print (Report.registers s.board))
  | .memory => (s, .print (Report.memory s.board))
  | .addBreak addr =>
    ({ s with breaks := insertBreak addr s.breaks },
      .print s!"Breakpoint added at PC={Text.hexByte addr}\n")
  | .listBreaks => (s, .print (Report.breakpoints s.breaks))
  | .clearBreak addr =>
    ({ s with breaks := s.breaks.filter (· ≠ addr) }, .print s!"Cleared {Text.hexByte addr}\n")
  | .clearBreaks => ({ s with breaks := [] }, .print "Breakpoints cleared.\n")
  | .trace n => (s, .print (Report.trace s.board n))
  | .reset => s.shown "Reset done.\n" (resetBoard s.board)
  | .disassemble addr n => (s, .print (Report.listing s.board addr n))
  | .send bytes => s.queue "send" bytes
  | .sendHex bytes => s.queue "sendhex" bytes
  | .output => (s, .print (Report.output s.board))
  | .upload on =>
    ({ s with board := s.board.setUpload on }, .print s!"upload mode {Report.onOff on}\n")
  | .load kind path => s.load kind path content
  | .misused usage => (s, .print s!"usage: {usage}\n")
  | .unknown => (s, .print "Unknown command. Type 'help'.\n")

end Session

end BrainfuckBoard
