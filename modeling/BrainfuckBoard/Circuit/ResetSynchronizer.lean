/- The reset of the board. It is asserted in the very step in which its pin is
   low, and released in the second step in a row in which the pin is high. -/
namespace BrainfuckBoard

structure ResetSynchronizer where
  asserted : Bool := true
  highSteps : Nat := 0
deriving DecidableEq, Repr

namespace ResetSynchronizer

/-- The pin is high this many steps before the reset is released. -/
def stages : Nat := 2

def clock (r : ResetSynchronizer) (pin : Bool) : ResetSynchronizer :=
  if pin then
    let highSteps := min stages (r.highSteps + 1)
    { asserted := highSteps < stages, highSteps }
  else {}

/-- After two steps with the pin high. -/
def released : ResetSynchronizer := (clock {} true).clock true

end ResetSynchronizer

end BrainfuckBoard
