import BrainfuckBoard.Text.Bytes

/- A synchronous memory that takes one read and one write in a step.
   Requests are pending during the step and take effect at its clock edge: the
   write first, then the read, so a read of the cell that is being written shows
   the new value. The output register holds what the last read found until the
   next one. Addresses count round the memory. -/
namespace BrainfuckBoard

structure Ram (depth : Nat) where
  cells : Vector UInt8 depth
  nonempty : 0 < depth := by decide
  out : UInt8 := 0
  pendingRead : Option (Fin depth) := none
  pendingWrite : Option (Fin depth × UInt8) := none
deriving DecidableEq, Repr

namespace Ram

variable {depth : Nat}

/-- The first `depth` bytes, with zeros where the list is too short. -/
def image (depth : Nat) (bytes : Bytes) : Vector UInt8 depth :=
  Vector.ofFn fun i => bytes.getD i 0

/-- The memory holds the image, its output is zero and nothing is requested. -/
def ofImage (cells : Vector UInt8 depth) (nonempty : 0 < depth := by decide) : Ram depth :=
  { cells, nonempty }

def blank (depth : Nat) (nonempty : 0 < depth := by decide) : Ram depth :=
  ofImage (Vector.replicate depth 0) nonempty

/-- The cell that an address stands for. -/
def index (m : Ram depth) (addr : Nat) : Fin depth := ⟨addr % depth, Nat.mod_lt _ m.nonempty⟩

def requestRead (m : Ram depth) (addr : Nat) : Ram depth :=
  { m with pendingRead := some (m.index addr) }

def requestWrite (m : Ram depth) (addr : Nat) (value : UInt8) : Ram depth :=
  { m with pendingWrite := some (m.index addr, value) }

/-- What the cell holds now, without a request. -/
def peek (m : Ram depth) (addr : Nat) : UInt8 := m.cells[m.index addr]

/-- The cells after a pending write. -/
def written (m : Ram depth) : Vector UInt8 depth :=
  match m.pendingWrite with
  | some (addr, value) => m.cells.set addr value
  | none => m.cells

/-- The clock edge. -/
def clock (m : Ram depth) : Ram depth :=
  let cells := m.written
  { cells
    nonempty := m.nonempty
    out := match m.pendingRead with
      | some addr => cells[addr]
      | none => m.out }

end Ram

end BrainfuckBoard
