/- The loader writes the bytes that arrive in upload mode into the program
   store, one after the other from address 0. A byte takes it three steps:
   it is taken, it is written, and the address moves on. A byte that arrives in
   between is lost. When upload mode ends the address goes back to 0. -/
namespace BrainfuckBoard

namespace Loader

inductive Phase
  | idle | write | wait
deriving DecidableEq, Repr

namespace Phase

/-- In the order of their numbers. -/
def all : List Phase := [idle, write, wait]

def name : Phase → String
  | idle => "Idle"
  | write => "Write"
  | wait => "Wait"

end Phase

end Loader

structure Loader where
  phase : Loader.Phase := .idle
  addr : UInt8 := 0
  data : UInt8 := 0
deriving DecidableEq, Repr

namespace Loader

/-- The program store is written in this step, at `addr` with `data`. -/
def writes (l : Loader) : Bool := l.phase == .write

def written? (l : Loader) : Option (UInt8 × UInt8) :=
  if l.writes then some (l.addr, l.data) else none

def busy (l : Loader) : Bool := l.phase != .idle

/-- One step, for a program store of `depth` words. -/
def clock (l : Loader) (upload : Bool) (byte? : Option UInt8) (depth : Nat) : Loader :=
  if upload then
    match l.phase with
    | .idle => match byte? with
      | some byte => { l with phase := .write, data := byte }
      | none => l
    | .write => { l with phase := .wait }
    | .wait => { l with phase := .idle, addr := UInt8.ofNat ((l.addr.toNat + 1) % depth) }
  else { l with phase := .idle, addr := 0 }

end Loader

/-- A received byte on its way to the one consumer it is for. -/
structure Route where
  toLoader : Bool
  toCpu : Bool
  data : UInt8
deriving DecidableEq, Repr

namespace Route

/-- Upload mode selects the loader, and the program gets the byte otherwise. -/
def select (upload valid : Bool) (data : UInt8) : Route :=
  { toLoader := upload && valid, toCpu := !upload && valid, data }

def loaderByte? (r : Route) : Option UInt8 := if r.toLoader then some r.data else none
def cpuByte? (r : Route) : Option UInt8 := if r.toCpu then some r.data else none

end Route

end BrainfuckBoard
