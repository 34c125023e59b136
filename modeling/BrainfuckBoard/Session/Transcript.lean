import BrainfuckBoard.Session
import BrainfuckBoard.Session.Options

/- A whole session, from its arguments and the lines it is given to its exit
   status and all that it shows. What is shown is cut where the session waits
   for a line; every part but the last ends with the prompt. -/
namespace BrainfuckBoard

structure Transcript where
  status : Nat
  parts : List Console
deriving DecidableEq, Repr

namespace Session

def prompt : Console := .print "\n> "

/-- The opening of a session. A program file is loaded before anything is
    shown, and there is no session if that fails. -/
def start (options : Options) (content : Option Bytes) : Console × Option Session :=
  let b := Board.ofConfig options.config
  if options.program = [] then (.print (Report.banner b), some { board := b })
  else
    let kind := FileKind.ofPath options.program
    match loadProgram b kind content with
    | (.ok words, b) => (loaded kind words ++ .print (Report.banner b), some { board := b })
    | (.error error, _) => (complaint kind options.program error, none)

/-- The parts after the opening, for the lines that are still to come. -/
def rest (files : Bytes → Option Bytes) (s : Session) : List Bytes → List Console
  | [] => [{}]
  | line :: lines =>
    let command := Command.read line
    if command = .quit then [{}]
    else
      let (s, shown) := s.respond command (command.file?.bind files)
      (shown ++ prompt) :: s.rest files lines

end Session

open Session in
/-- `files` says what is in a file that can be opened. -/
def Transcript.of (args : List Bytes) (files : Bytes → Option Bytes) (lines : List Bytes) :
    Transcript :=
  match Options.read {} args with
  | .error refusal => ⟨refusal.status, [{ err := Text.utf8 Options.usage }]⟩
  | .ok options =>
    match start options (files options.program) with
    | (shown, none) => ⟨1, [shown]⟩
    | (shown, some s) => ⟨0, (shown ++ prompt) :: s.rest files lines⟩

end BrainfuckBoard
