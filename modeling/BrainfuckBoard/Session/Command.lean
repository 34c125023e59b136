import BrainfuckBoard.Image.ProgramFile

/- The commands of a session, and how a line is read as one.
   The first word of a line, in any case, names the command; `verbs` lists the
   names. The rest of the line is the command's own to read. A command whose
   arguments make no sense is `misused` and says how it is used. -/
namespace BrainfuckBoard

inductive Command
  | blank
  | quit
  | help
  | stepInstruction
  | stepClock (n : Nat)
  | runInstructions (n : Nat)
  | go
  | start
  | registers
  | memory
  | addBreak (addr : UInt8)
  | listBreaks
  | clearBreak (addr : UInt8)
  | clearBreaks
  | trace (frames : Nat)
  | reset
  | sleep (milliseconds : Nat)
  | disassemble (addr : UInt32) (n : Nat)
  | send (bytes : Bytes)
  | sendHex (bytes : Bytes)
  | output
  | upload (on : Bool)
  | load (kind : FileKind) (path : Bytes)
  | misused (usage : String)
  | unknown
deriving DecidableEq, Repr

namespace Command

open Text

/-- The largest number of 32 bits, and of 64 bits, one of them for the sign. -/
def maxInt32 : Nat := 2147483647
def maxInt64 : Nat := 9223372036854775807

/-- A breakpoint is an address of the program store. -/
def readBreak (rest : Bytes) : Command :=
  match address? (cutWord rest).1 with
  | some addr => .addBreak (addr % 32).toUInt8
  | none => .misused "b ADDR"

/-- Without an address all breakpoints go. -/
def readClear (rest : Bytes) : Command :=
  let word := (cutWord rest).1
  if word = [] then .clearBreaks
  else match address? word with
    | some addr => .clearBreak addr.toUInt8
    | none => .misused "bc [ADDR]"

def readDisassemble (rest : Bytes) : Command :=
  let (word, rest) := cutWord rest
  if word = [] then .disassemble 0 programDepth
  else match address? word with
    | some addr => .disassemble addr.toUInt32 (count maxInt32 programDepth rest)
    | none => .misused "d [ADDR-hex] [N]"

/-- The rest of the line, less the one space after the command. -/
def readSend (rest : Bytes) : Command :=
  match rest with
  | 32 :: bytes => .send bytes
  | bytes => .send bytes

def hexArgument? (word : Bytes) : Option UInt8 :=
  (address? word).bind fun n => if n ≤ 255 then some n.toUInt8 else none

def readSendHex (rest : Bytes) : Command :=
  match (words rest).mapM hexArgument? with
  | some (byte :: bytes) => .sendHex (byte :: bytes)
  | some [] | none => .misused "sendhex XX [XX ...]"

def readUpload (rest : Bytes) : Command :=
  let word := (cutWord rest).1
  if word = utf8 "on" then .upload true
  else if word = utf8 "off" then .upload false
  else .misused "upload on|off"

def readLoad (kind : FileKind) (rest : Bytes) : Command :=
  match (cutWord rest).1 with
  | [] => .misused s!"{kind.command} <path>"
  | path => .load kind path

/-- The names of the commands, each with the reader of what follows it. -/
def verbs : List (String × (Bytes → Command)) :=
  [("q", fun _ => .quit),
   ("quit", fun _ => .quit),
   ("exit", fun _ => .quit),
   ("help", fun _ => .help),
   ("h", fun _ => .help),
   ("?", fun _ => .help),
   ("s", fun _ => .stepInstruction),
   ("c", fun rest => .stepClock (count maxInt64 1 rest)),
   ("r", fun rest => .runInstructions (count maxInt32 1 rest)),
   ("g", fun _ => .go),
   ("run", fun _ => .start),
   ("p", fun _ => .registers),
   ("m", fun _ => .memory),
   ("b", readBreak),
   ("bl", fun _ => .listBreaks),
   ("bc", readClear),
   ("t", fun rest => .trace (count maxInt32 20 rest)),
   ("reset", fun _ => .reset),
   ("sleep", fun rest => .sleep (count maxInt32 0 rest)),
   ("d", readDisassemble),
   ("dis", readDisassemble),
   ("disasm", readDisassemble),
   ("send", readSend),
   ("sendhex", readSendHex),
   ("out", fun _ => .output),
   ("upload", readUpload),
   ("loadhex", readLoad .hex),
   ("loadbin", readLoad .raw),
   ("loadbf", readLoad .source)]

def read (line : Bytes) : Command :=
  match cutWord line with
  | ([], _) => .blank
  | (word, rest) =>
    match verbs.find? fun verb => utf8 verb.1 == lower word with
    | some verb => verb.2 rest
    | none => .unknown

/-- The file that the command needs. A name ends before its first zero byte. -/
def file? : Command → Option Bytes
  | load _ path => some (path.takeWhile (· != 0))
  | _ => none

end Command

end BrainfuckBoard
