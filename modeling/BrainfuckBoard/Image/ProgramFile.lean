import BrainfuckBoard.Circuit.Core
import BrainfuckBoard.Image.HexText
import BrainfuckBoard.Language.Compiler

/- Program files. A file is source text that is compiled, hexadecimal text, or
   the words themselves. The end of a file's name says which it is, where no
   command does. -/
namespace BrainfuckBoard

inductive FileKind
  | source | hex | raw
deriving DecidableEq, Repr

inductive LoadError
  | cannotOpen
  | hexText (error : HexText.Error)
  | source (error : CompileError)
  | tooLarge (words : Nat)
  | incomplete
deriving DecidableEq, Repr

namespace FileKind

open Text

/-- The command that loads files of this kind. -/
def command : FileKind → String
  | source => "loadbf"
  | hex => "loadhex"
  | raw => "loadbin"

def endsWith (path : Bytes) (ending : String) : Bool := (utf8 ending).isSuffixOf path

def ofPath (path : Bytes) : FileKind :=
  if endsWith path ".bf" || endsWith path ".b" then source
  else if endsWith path ".hex" then hex
  else raw

/-- The words in a file. -/
def read (kind : FileKind) (content : Option Bytes) : Except LoadError (List Word) :=
  match kind, content with
  | hex, content => (HexText.readFile content).mapError .hexText
  | source, some text => (compile text).mapError .source
  | raw, some words => .ok words
  | _, none => .error .cannotOpen

/-- The words in a file, if the program store can take them. -/
def program (kind : FileKind) (content : Option Bytes) : Except LoadError (List Word) := do
  let words ← kind.read content
  if programDepth < words.length then .error (.tooLarge words.length) else .ok words

end FileKind

open Text in
/-- The message for a file at `path`, without the command in front of it. -/
def LoadError.message (kind : FileKind) (path : Bytes) : LoadError → Bytes
  | .cannotOpen =>
    let failure := match kind with
      | .raw => "failed to read"
      | .source | .hex => "cannot open"
    utf8 s!"{failure} '" ++ path ++ utf8 "'"
  | .hexText error => error.message path
  | .source error => utf8 error.message
  | .tooLarge words => utf8 s!"program too large: {words} words, store holds {programDepth}"
  | .incomplete => utf8 "upload did not complete"

end BrainfuckBoard
