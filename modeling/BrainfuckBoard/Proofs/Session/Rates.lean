import Mathlib.Algebra.Group.Nat.Defs
import BrainfuckBoard.Session.Options

/- The divisors of the baud clock against the exact quotient of the rates. The sum in the
   rounding is cut to 64 bits, the quotient and its sixteenfold to 32. Up to a divisor of 2^28 - 1
   nothing is cut, and both divisors are exact; from there on the bit divisor never is. When the
   sum wraps, what is left of it is less than half a tick, and the divisor is 1
   (`divisors_of_rates`). It is 0 at rates that the command line takes (`divisor_cut_to_zero`). -/
namespace BrainfuckBoard.BaudClock

/-- Steps to an oversample tick: the clock rate by sixteen times the baud rate, to the nearest
    whole number, and not less than 1. -/
def exactDivisor (clockHz baud : Nat) : Nat := max 1 ((clockHz + 8 * baud) / (16 * baud))

section
variable {clockHz baud : Nat}

/-- Sixteen bauds times the divisor miss the clock rate by half of sixteen bauds at most. -/
theorem exactDivisor_nearest (hbaud : 0 < baud) (h : 8 * baud ≤ clockHz) :
    16 * baud * exactDivisor clockHz baud ≤ clockHz + 8 * baud ∧
      clockHz < 16 * baud * exactDivisor clockHz baud + 8 * baud := by
  have htick : 0 < 16 * baud := Nat.mul_pos (by decide) hbaud
  have hone : 1 ≤ (clockHz + 8 * baud) / (16 * baud) := (Nat.le_div_iff_mul_le htick).mpr (by omega)
  have hlow := Nat.mul_div_le (clockHz + 8 * baud) (16 * baud)
  have hhigh := Nat.lt_mul_div_succ (clockHz + 8 * baud) htick
  rw [exactDivisor, Nat.max_eq_right hone]
  rw [Nat.mul_add] at hhigh
  omega

/-- A sum of 64 bits or more makes a divisor of 29 bits or more. -/
theorem le_exactDivisor_of_wrapped (hbaud : 0 < baud) (hbits : baud < 2 ^ 32)
    (h : 2 ^ 64 ≤ clockHz + 8 * baud) : 2 ^ 28 ≤ exactDivisor clockHz baud := by
  have hquotient : 2 ^ 28 ≤ (clockHz + 8 * baud) / (16 * baud) :=
    (Nat.le_div_iff_mul_le (Nat.mul_pos (by decide) hbaud)).mpr (by omega)
  exact Nat.le_trans hquotient (Nat.le_max_right 1 _)

end

section
variable {clockHz : UInt64} {baud : UInt32}

theorem toNat_max_one (n : UInt64) : (max 1 n).toNat = max 1 n.toNat := by
  rw [show max 1 n = if 1 ≤ n then n else 1 from rfl]
  split
  · next h => exact (Nat.max_eq_right (UInt64.le_iff_toNat_le.mp h)).symm
  · next h => exact (Nat.max_eq_left (Nat.le_of_not_le fun h' => h (UInt64.le_iff_toNat_le.mpr h'))).symm

/-- The divisor before the cut to 32 bits: exact but for the wrap of the sum. -/
theorem toNat_divisor (hbaud : baud ≠ 0) : (divisor clockHz baud).toNat =
    max 1 ((clockHz.toNat + 8 * baud.toNat) % 2 ^ 64 / (16 * baud.toNat)) := by
  have hbits := baud.toNat_lt
  have htick : (baud.toUInt64 * 16).toNat = 16 * baud.toNat := by
    rw [UInt64.toNat_mul, UInt32.toNat_toUInt64, show (16 : UInt64).toNat = 16 from rfl]
    omega
  have hhalf : (baud.toUInt64 * 16 / 2).toNat = 8 * baud.toNat := by
    rw [UInt64.toNat_div, htick, show (2 : UInt64).toNat = 2 from rfl]
    omega
  rw [divisor, if_neg hbaud, toNat_max_one, UInt64.toNat_div, UInt64.toNat_add, htick, hhalf]

theorem toNat_oversampleDivisor :
    (ofRates clockHz baud).oversampleDivisor.toNat = (divisor clockHz baud).toNat % 2 ^ 32 :=
  UInt64.toNat_toUInt32 _

theorem toNat_bitDivisor :
    (ofRates clockHz baud).bitDivisor.toNat = 16 * (divisor clockHz baud).toNat % 2 ^ 32 := by
  have hbit : (ofRates clockHz baud).bitDivisor = (divisor clockHz baud).toUInt32 * 16 := rfl
  rw [hbit, UInt32.toNat_mul, UInt64.toNat_toUInt32, show (16 : UInt32).toNat = 16 from rfl,
    Nat.mod_mul_mod, Nat.mul_comm]

/-- The divisors that the rates give. -/
structure Divides (clockHz : UInt64) (baud : UInt32) : Prop where
  nearest : 8 * baud.toNat ≤ clockHz.toNat →
    16 * baud.toNat * exactDivisor clockHz.toNat baud.toNat ≤ clockHz.toNat + 8 * baud.toNat ∧
      clockHz.toNat < 16 * baud.toNat * exactDivisor clockHz.toNat baud.toNat + 8 * baud.toNat
  exact : exactDivisor clockHz.toNat baud.toNat < 2 ^ 28 →
    (ofRates clockHz baud).oversampleDivisor.toNat = exactDivisor clockHz.toNat baud.toNat ∧
      (ofRates clockHz baud).bitDivisor.toNat = 16 * exactDivisor clockHz.toNat baud.toNat
  cut : clockHz.toNat + 8 * baud.toNat < 2 ^ 64 →
    (ofRates clockHz baud).oversampleDivisor.toNat = exactDivisor clockHz.toNat baud.toNat % 2 ^ 32 ∧
      (ofRates clockHz baud).bitDivisor.toNat = 16 * exactDivisor clockHz.toNat baud.toNat % 2 ^ 32
  wrapped : 2 ^ 64 ≤ clockHz.toNat + 8 * baud.toNat →
    (ofRates clockHz baud).oversampleDivisor = 1 ∧ (ofRates clockHz baud).bitDivisor = 16 ∧
      2 ^ 28 ≤ exactDivisor clockHz.toNat baud.toNat
  inexact : 2 ^ 28 ≤ exactDivisor clockHz.toNat baud.toNat →
    (ofRates clockHz baud).bitDivisor.toNat ≠ 16 * exactDivisor clockHz.toNat baud.toNat

theorem ofRates_cut (hbaud : baud ≠ 0) (h : clockHz.toNat + 8 * baud.toNat < 2 ^ 64) :
    (ofRates clockHz baud).oversampleDivisor.toNat = exactDivisor clockHz.toNat baud.toNat % 2 ^ 32 ∧
      (ofRates clockHz baud).bitDivisor.toNat = 16 * exactDivisor clockHz.toNat baud.toNat % 2 ^ 32 := by
  have hdivisor : (divisor clockHz baud).toNat = exactDivisor clockHz.toNat baud.toNat := by
    rw [toNat_divisor hbaud, Nat.mod_eq_of_lt h]
    rfl
  rw [toNat_oversampleDivisor, toNat_bitDivisor, hdivisor]
  exact ⟨rfl, rfl⟩

/-- What the sum has over 64 bits is less than half of sixteen bauds. -/
theorem ofRates_wrapped (hbaud : baud ≠ 0) (h : 2 ^ 64 ≤ clockHz.toNat + 8 * baud.toNat) :
    (ofRates clockHz baud).oversampleDivisor = 1 ∧ (ofRates clockHz baud).bitDivisor = 16 := by
  have hclock := clockHz.toNat_lt
  have hbits := baud.toNat_lt
  have hdivisor : (divisor clockHz baud).toNat = 1 := by
    rw [toNat_divisor hbaud, Nat.div_eq_of_lt (by omega)]
    rfl
  constructor
  · apply UInt32.toNat_inj.mp
    rw [toNat_oversampleDivisor, hdivisor]
    rfl
  · apply UInt32.toNat_inj.mp
    rw [toNat_bitDivisor, hdivisor]
    rfl

/-- At every clock rate and every baud rate but 0. -/
theorem divisors_of_rates (hbaud : baud ≠ 0) : Divides clockHz baud := by
  have hpos : 0 < baud.toNat := Nat.pos_of_ne_zero fun hzero => hbaud (UInt32.toNat_inj.mp hzero)
  have hwrapped : 2 ^ 64 ≤ clockHz.toNat + 8 * baud.toNat →
      2 ^ 28 ≤ exactDivisor clockHz.toNat baud.toNat :=
    le_exactDivisor_of_wrapped hpos baud.toNat_lt
  refine ⟨exactDivisor_nearest hpos, fun hsmall => ?_, ofRates_cut hbaud,
    fun h => ⟨(ofRates_wrapped hbaud h).1, (ofRates_wrapped hbaud h).2, hwrapped h⟩, fun hlarge heq => ?_⟩
  · obtain ⟨hoversample, hbit⟩ := ofRates_cut hbaud
      (Nat.lt_of_not_le fun h => absurd (hwrapped h) (Nat.not_le_of_lt hsmall))
    rw [hoversample, hbit]
    omega
  · have hbit := (ofRates clockHz baud).bitDivisor.toNat_lt
    omega

/-- The fastest clock that gives exact divisors at one baud. -/
theorem divisors_of_rates_fast : (1 : UInt32) ≠ 0 ∧ Divides 4294967287 1 ∧
    (ofRates 4294967287 1).oversampleDivisor.toNat = 2 ^ 28 - 1 :=
  ⟨by decide, divisors_of_rates (by decide), by decide⟩

/-- The command line takes the rates, and both divisors are cut to nothing. -/
theorem divisor_cut_to_zero :
    (Options.read {} (["--clock", "68719476736", "--baud", "1"].map Text.utf8)).toOption =
        some { config := { clockHz := 68719476736, baud := 1 } } ∧
      ((ofRates 68719476736 1).oversampleDivisor = 0 ∧ (ofRates 68719476736 1).bitDivisor = 0) ∧
      (ofRates 68719476736 1).oversampleDivisor.toNat ≠ exactDivisor 68719476736 1 ∧
      (ofRates 68719476736 1).bitDivisor.toNat ≠ 16 * exactDivisor 68719476736 1 :=
  ⟨by decide +kernel, by decide, by decide, by decide⟩

end

end BrainfuckBoard.BaudClock
