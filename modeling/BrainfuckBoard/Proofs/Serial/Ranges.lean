import BrainfuckBoard.Circuit.LinePhase
import BrainfuckBoard.Proofs.Serial.Reception
import BrainfuckBoard.Proofs.Serial.Transmission

/- The registers of the serial parts stay in their ranges, at any divisors, whatever is on
   the line and whatever is handed over. The counters of the baud clock are compared with
   `≥`, so a step brings them below their divisors from anywhere; the counters of the
   receiver and the transmitter are compared with `=`, so no step may lead past the
   comparison. -/
namespace BrainfuckBoard

namespace BaudClock

section
variable {c : BaudClock}

/-- A divisor of 0 counts as 1. -/
structure InRange (c : BaudClock) : Prop where
  oversample : c.oversampleCount.toNat < max 1 c.oversampleDivisor.toNat
  bit : c.bitCount.toNat < max 1 c.bitDivisor.toNat

theorem zero_inRange (divisor : UInt32) : (0 : UInt32).toNat < max 1 divisor.toNat :=
  Nat.lt_of_lt_of_le Nat.zero_lt_one (Nat.le_max_left 1 _)

theorem advance_inRange (count divisor : UInt32) :
    (advance count divisor).1.toNat < max 1 divisor.toNat := by
  unfold advance
  split
  · exact zero_inRange divisor
  · next hlt =>
    rw [ge_iff_le, UInt32.le_iff_toNat_le, Nat.not_le] at hlt
    exact Nat.lt_of_lt_of_le hlt (Nat.le_max_right 1 _)

theorem inRange_reset (c : BaudClock) : c.reset.InRange := ⟨zero_inRange _, zero_inRange _⟩

theorem inRange_clock (c : BaudClock) (sending : Bool) : (c.clock sending).InRange where
  oversample := advance_inRange _ _
  bit := by
    cases sending
    · exact zero_inRange _
    · exact advance_inRange _ _

end

end BaudClock

namespace Receiver

/-- The counter of ticks and the index of the bit. -/
def Phase.InRange : Phase → Prop
  | .idle => True
  | .start n => n ≤ 7
  | .bits i n _ => i ≤ 7 ∧ n ≤ 15
  | .stop n _ => n ≤ 15
  | .rest n => n ≤ 6

section
variable {r : Receiver} {line ticked level : Bool}

theorem inRange_tick (h : r.phase.InRange) : (r.tick level).phase.InRange := by
  cases hp : r.phase <;> rw [hp] at h <;> simp only [Receiver.tick, hp]
  case idle => exact h
  case start n =>
    split
    · cases level
      · exact ⟨Nat.zero_le _, Nat.zero_le _⟩
      · trivial
    · next hlast => exact Nat.lt_of_le_of_ne h hlast
  case bits i n shift =>
    obtain ⟨hi, hn⟩ := h
    split
    · dsimp only
      split
      · exact Nat.zero_le _
      · next hlast => exact ⟨Nat.lt_of_le_of_ne hi hlast, Nat.zero_le _⟩
    · next hlast => exact ⟨hi, Nat.lt_of_le_of_ne hn hlast⟩
  case stop n byte =>
    split
    · cases level <;> exact Nat.zero_le _
    · next hlast => exact Nat.lt_of_le_of_ne h hlast
  case rest n =>
    split
    · trivial
    · next hlast => exact Nat.lt_of_le_of_ne h hlast

theorem inRange_clock (h : r.phase.InRange) : (r.clock line ticked).phase.InRange := by
  by_cases hp : r.phase = .idle
  · cases hs : r.second
    · rw [clock_idle_low hp hs]
      exact Nat.zero_le _
    · rw [clock_idle_high hp hs]
      exact h
  · rw [clock_busy hp]
    cases ticked
    · exact h
    · exact inRange_tick h

theorem Coherent.busy_iff_linePhase (h : r.Coherent) : r.busy = true ↔ r.linePhase ≠ .idle := by
  rw [h.busy, linePhase]
  cases r.phase <;> simp

end

end Receiver

namespace Transmitter

/-- Between frames it is as it was at first. -/
def Regular (t : Transmitter) : Prop := t = {} ∨ ∃ byte, t.Sends byte

section
variable {t : Transmitter}

theorem Regular.clock (h : t.Regular) (offered : Option UInt8) (ticked : Bool) :
    (t.clock offered ticked).Regular := by
  rcases h with rfl | ⟨byte, h⟩
  · cases offered with
    | none => exact .inl rfl
    | some byte => exact .inr ⟨byte, rfl, rfl, rfl⟩
  · rw [clock_busy h.ne_idle]
    cases ticked with
    | false => exact .inr ⟨byte, h⟩
    | true =>
      rcases h.tick with ⟨hnext, -⟩ | ⟨-, hidle⟩
      · exact .inr ⟨byte, hnext⟩
      · exact .inl hidle

/-- The line in each part of a frame. The data bits may be anything. -/
def LineIs (line : Bool) : LinePhase → Prop
  | .idle | .stop => line = true
  | .start => line = false
  | .data => True

theorem Regular.line (h : t.Regular) : LineIs t.line t.linePhase := by
  rcases h with rfl | ⟨byte, h⟩
  · rfl
  · have hline := h.line
    unfold linePhase
    cases hp : t.phase <;> rw [hp] at hline
    case idle => exact absurd hp h.ne_idle
    case start b => exact hline
    case bits b i => trivial
    case stop => exact hline

theorem Regular.busy_iff_linePhase (h : t.Regular) : t.busy = true ↔ t.linePhase ≠ .idle := by
  rcases h with rfl | ⟨byte, h⟩
  · decide
  · have hframe : t.linePhase ≠ .idle := by
      have hidle := h.ne_idle
      unfold linePhase
      cases hp : t.phase <;> simp_all
    exact ⟨fun _ => hframe, fun _ => h.busy⟩

theorem Regular.bit_le (h : t.Regular) {byte : UInt8} {i : Nat} (hp : t.phase = .bits byte i) : i ≤ 7 := by
  rcases h with rfl | ⟨sent, h⟩
  · exact absurd hp nofun
  · have hphase := h.phase
    rw [hp] at hphase
    exact hphase.2

end

end Transmitter

end BrainfuckBoard
