import BrainfuckBoard.Board
import BrainfuckBoard.Instruction.Listing

/- What a session shows of a board, as lines of text. Bytes are shown as two
   hexadecimal digits throughout. -/
namespace BrainfuckBoard.Report

open Text

def onOff (on : Bool) : String := if on then "on" else "off"

def flag (set : Bool) (mark : String) : String := if set then mark else "-"

def bit (level : Bool) : String := if level then "1" else "0"

/-- Which of the processor, the loader, the transmitter and the receiver are busy. -/
def busyFlags (c : Chip) : String :=
  flag c.core.cpu.busy "E" ++ flag c.loader.busy "L" ++ flag c.transmitter.busy "T" ++
    flag c.receiver.busy "R"

def registers (b : Board) : String :=
  let cpu := b.cpu
  s!"PC={hexByte cpu.pc}  DP={hexByte cpu.dp}  CELL={hexByte cpu.cell}  IR={hexByte cpu.instr}" ++
    s!"  state={cpu.phase.shortName}  busy={busyFlags b.chip}" ++
    s!"  upload={onOff b.pins.upload}  cycles={b.cycles}\n"

/-- Sixteen words of the program store, from a row's first address. -/
def programRow (b : Board) (row : Nat) : String :=
  let cells := (List.range 16).map fun i => hexByte (b.chip.core.program.peek (row + i)) ++ " "
  s!"  {hexByte (UInt8.ofNat row)}: {String.join cells}\n"

/-- The tape, with a star at the current cell. -/
def tapeRow (b : Board) : String :=
  let cells := (List.range tapeDepth).map fun i =>
    hexByte (b.chip.core.tape.peek i) ++ if i = b.cpu.dp.toNat then "*" else " "
  s!"  00: {String.join cells}\n"

def memory (b : Board) : String :=
  "program:\n" ++ programRow b 0 ++ programRow b 16 ++ "tape:\n" ++ tapeRow b

/-- One word of the program store, with a mark at the next instruction. -/
def listingLine (b : Board) (addr : Nat) : String :=
  let mark := if addr = b.cpu.pc.toNat then "> " else "  "
  s!"{mark}{hexByte (UInt8.ofNat addr)}:  " ++
    s!"{Word.listing (b.chip.core.program.peek addr) addr programDepth}\n"

/-- `n` words from `start` on, round the store. -/
def listing (b : Board) (start : UInt32) (n : Nat) : String :=
  String.join ((List.range n).map fun i => listingLine b ((start.toNat + i) % programDepth))

def targetName : BusTarget → String
  | .program => "PRG"
  | .tape => "TAP"
  | .transmitter | .receiver => "URT"

def directionName : BusDirection → String
  | .read => "RD"
  | .write => "WR"
  | .none => "--"

def action (a : BusAction) : String :=
  s!"    {targetName a.target} {directionName a.direction}" ++
    s!" [{hexByte a.address}] = {hexByte a.data}  {a.note}\n"

def frame (f : TraceFrame) : String :=
  s!"{f.cycle}  {hexByte f.pc}  {hexByte f.instr}  {hexByte f.dp} {hexByte f.cell}" ++
    s!"  {f.phase.shortName}  tx={bit f.tx} rx={bit f.rx}\n" ++
    String.join (f.events.map fun event => action event.action)

/-- The last `n` frames of the timeline. -/
def trace (b : Board) (n : Nat) : String :=
  if b.timeline.size = 0 then "(no trace yet)\n"
  else String.join ((b.timeline.last n).map frame)

/-- The characters from space to tilde as they are, and a full stop for the rest. -/
def printable (byte : UInt8) : Char :=
  if 32 ≤ byte && byte < 127 then Char.ofNat byte.toNat else '.'

def received (bytes : Bytes) : String :=
  if bytes = [] then "(no output)\n"
  else
    let numbers := String.join (bytes.map fun byte => hexByte byte ++ " ")
    let text := String.ofList (bytes.map printable)
    s!"{numbers}\n\"{text}\"\n"

/-- What the terminal has received, and how often a stop bit was missing. -/
def output (b : Board) : String :=
  let listener := b.terminal.listener
  let errors := if listener.framingErrors = 0 then ""
    else s!"framing errors: {listener.framingErrors}\n"
  received listener.received.toList ++ errors

/-- One line for each breakpoint, in the order in which the session keeps them. No order is
    required of the list. -/
def breakpoints (addrs : List UInt8) : String :=
  if addrs = [] then "(no breakpoints)\n"
  else String.join (addrs.map fun addr => s!" - {hexByte addr}\n")

def help : String :=
  "Commands:\n" ++
  "  s                 step one instruction\n" ++
  "  c [N]             step N clock cycles (default 1)\n" ++
  "  r N               run N instructions\n" ++
  "  g                 run until halt or breakpoint\n" ++
  "  run               pulse run-start (engine leaves Idle)\n" ++
  "  p                 print registers\n" ++
  "  m                 dump program store and tape\n" ++
  "  b ADDR            add breakpoint at PC==ADDR (hex)\n" ++
  "  bl                list breakpoints\n" ++
  "  bc [ADDR]         clear breakpoint at ADDR or all if none\n" ++
  "  t [K]             show last K trace frames (default 20)\n" ++
  "  reset             system reset (default program, tape cleared)\n" ++
  "  sleep MS          sleep for MS milliseconds\n" ++
  "  d [ADDR] [N]      disassemble N words of program store from hex ADDR\n" ++
  "  send TEXT         send TEXT over the serial line (no newline)\n" ++
  "  sendhex XX ..     send hex bytes over the serial line\n" ++
  "  out               show bytes received from the machine\n" ++
  "  upload on|off     set upload mode (received bytes go to the loader)\n" ++
  "  loadhex FILE      reset and upload a hex-bytes program over the serial line\n" ++
  "  loadbin FILE      reset and upload a binary program over the serial line\n" ++
  "  loadbf FILE       reset, compile Brainfuck source and upload it\n" ++
  "  help              this text\n" ++
  "  quit              exit\n"

/-- What a session opens with. -/
def banner (b : Board) : String :=
  "Brainfuck CPU Simulator (CLI)\n" ++
    s!"clock {b.config.clockHz} Hz, {b.config.baud} baud, {b.chip.baud.bitDivisor} cycles/bit\n" ++
    "Type 'help' for commands.\n\n" ++ registers b

end BrainfuckBoard.Report
