/- The clock of the serial wire, derived from the clock of the board by two
   counters.
   1. The oversample counter never stops; it ticks once in `oversampleDivisor`
      steps. Sixteen of its ticks make a bit for the receiver.
   2. The bit counter ticks once in `bitDivisor` steps while it is enabled, and
      starts from nothing whenever it is not.
   Ticks are registered and one step wide. The registers are 32 bits wide, so a
   divisor is cut to 32 bits; the rounding before it is done in 64 bits. -/
namespace BrainfuckBoard

structure BaudClock where
  oversampleDivisor : UInt32 := 1
  bitDivisor : UInt32 := 16
  oversampleCount : UInt32 := 0
  bitCount : UInt32 := 0
  oversampleTick : Bool := false
  bitTick : Bool := false
deriving DecidableEq, Repr

namespace BaudClock

/-- Clock steps to one oversample tick, to the nearest, before the cut. -/
def divisor (clockHz : UInt64) (baud : UInt32) : UInt64 :=
  if baud = 0 then 1
  else
    let perTick := baud.toUInt64 * 16
    max 1 ((clockHz + perTick / 2) / perTick)

def ofRates (clockHz : UInt64) (baud : UInt32) : BaudClock :=
  let oversample := (divisor clockHz baud).toUInt32
  { oversampleDivisor := oversample, bitDivisor := oversample * 16 }

/-- Both counters at nothing; the divisors stay. -/
def reset (c : BaudClock) : BaudClock :=
  { oversampleDivisor := c.oversampleDivisor, bitDivisor := c.bitDivisor }

/-- A counter's next value, and whether it ticks. -/
def advance (count divisor : UInt32) : UInt32 × Bool :=
  if count + 1 ≥ divisor then (0, true) else (count + 1, false)

/-- One step; `sending` enables the bit counter. -/
def clock (c : BaudClock) (sending : Bool) : BaudClock :=
  let oversample := advance c.oversampleCount c.oversampleDivisor
  let bit := if sending then advance c.bitCount c.bitDivisor else (0, false)
  { c with
    oversampleCount := oversample.1
    oversampleTick := oversample.2
    bitCount := bit.1
    bitTick := bit.2 }

end BaudClock

end BrainfuckBoard
