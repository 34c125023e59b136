import BrainfuckBoard.Circuit.Cpu

/- What can be seen on the buses of the board during a step: accesses to the two
   memories, bytes handed to the transmitter, bytes and framing errors that the
   receiver reports. -/
namespace BrainfuckBoard

inductive BusTarget
  | program | tape | transmitter | receiver
deriving DecidableEq, Repr

inductive BusDirection
  | read | write | none
deriving DecidableEq, Repr

inductive BusAction
  | upload (addr data : UInt8)
  | fetch (addr data : UInt8)
  | cellWrite (addr data : UInt8)
  | cellRead (addr data : UInt8)
  | send (data : UInt8)
  | receive (data : UInt8) (toLoader : Bool)
  | framingError
deriving DecidableEq, Repr

namespace BusAction

def target : BusAction → BusTarget
  | upload _ _ | fetch _ _ => .program
  | cellWrite _ _ | cellRead _ _ => .tape
  | send _ => .transmitter
  | receive _ _ | framingError => .receiver

def direction : BusAction → BusDirection
  | upload _ _ | cellWrite _ _ | send _ => .write
  | fetch _ _ | cellRead _ _ | receive _ _ => .read
  | framingError => .none

/-- The serial line has no addresses and show 0. -/
def address : BusAction → UInt8
  | upload addr _ | fetch addr _ | cellWrite addr _ | cellRead addr _ => addr
  | send _ | receive _ _ | framingError => 0

def data : BusAction → UInt8
  | upload _ data | fetch _ data | cellWrite _ data | cellRead _ data => data
  | send data | receive data _ => data
  | framingError => 0

def note : BusAction → String
  | upload _ _ => "upload"
  | fetch _ _ => "fetch"
  | cellWrite _ _ => "cell write"
  | cellRead _ _ => "cell read"
  | send _ => "tx start"
  | receive _ true => "rx -> loader"
  | receive _ false => "rx -> engine"
  | framingError => "framing error"

end BusAction

/-- An action, with the step it happened in and the phase of the processor
    during that step. `cycle` numbers the step; like the count of the steps it is taken not to
    wrap, as fewer than 2 ^ 64 come after a reset. -/
structure BusEvent where
  cycle : Nat
  phase : Cpu.Phase
  action : BusAction
deriving DecidableEq, Repr

end BrainfuckBoard
