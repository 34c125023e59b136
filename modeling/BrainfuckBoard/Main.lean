import BrainfuckBoard.Session.Transcript

/- The program. It reads the files and the lines that a session asks for, waits
   where it asks to wait, and writes what it shows. -/
namespace BrainfuckBoard

def Console.write (c : Console) : IO Unit := do
  let out ← IO.getStdout
  let err ← IO.getStderr
  out.write ⟨c.out.toArray⟩
  out.flush
  err.write ⟨c.err.toArray⟩
  err.flush

/-- The bytes of a file, if it can be opened. -/
def readFile? (path : Bytes) : IO (Option Bytes) := do
  match String.fromUTF8? ⟨path.toArray⟩ with
  | none => return none
  | some name =>
    try
      let content ← IO.FS.readBinFile name
      return some content.toList
    catch _ => return none

/-- The next line without its end, or nothing at the end of the input. -/
partial def readLine? (input : IO.FS.Stream) (taken : ByteArray) : IO (Option Bytes) := do
  let next ← input.read 1
  if next.isEmpty then
    return if taken.isEmpty then none else some taken.toList
  else if next.toList = [Text.newline] then return some taken.toList
  else readLine? input (taken ++ next)

partial def Session.interact (input : IO.FS.Stream) (s : Session) : IO Unit := do
  Session.prompt.write
  match ← readLine? input .empty with
  | none => return
  | some line =>
    let command := Command.read line
    if command = .quit then return
    if let .sleep milliseconds := command then
      IO.sleep (UInt32.ofNat milliseconds)
    let content ← match command.file? with
      | some path => readFile? path
      | none => pure none
    let (s, shown) := s.respond command content
    shown.write
    s.interact input

end BrainfuckBoard

open BrainfuckBoard in
def main (args : List String) : IO UInt32 := do
  match Options.read {} (args.map Text.utf8) with
  | .error refusal =>
    let refused : Console := { err := Text.utf8 Options.usage }
    refused.write
    return UInt32.ofNat refusal.status
  | .ok options =>
    let (shown, session?) := Session.start options (← readFile? options.program)
    shown.write
    match session? with
    | none => return 1
    | some s =>
      s.interact (← IO.getStdin)
      return 0
