/- Positions on a ring. The tape and the program store are rings: a move past
   the last cell comes in again at the first. `ringPlace` moves a place of the
   ring itself. `ringMove` does the same for a position in a register of eight
   bits; the place reached on a longer ring is cut to eight bits. On rings of
   up to 256 cells the two agree. -/
namespace BrainfuckBoard

/-- The place `move` cells on from `place`. -/
def ringPlace {size : Nat} (place : Fin size) (move : Int) : Fin size :=
  ⟨((place.val + move) % size).toNat, by
    have h₁ := place.isLt
    have h₂ := Int.emod_lt_of_pos ((place.val : Int) + move) (show 0 < (size : Int) by omega)
    have h₃ := Int.emod_nonneg ((place.val : Int) + move) (show (size : Int) ≠ 0 by omega)
    omega⟩

/-- The place `move` cells on from `position` on a ring of `size` cells. -/
def ringMove (position : Nat) (move : Int) (size : Nat) : UInt8 :=
  UInt8.ofNat ((position + move) % size).toNat

theorem ringMove_eq_ringPlace {size : Nat} (h : size ≤ 256) (place : Fin size) (move : Int) :
    (ringMove place.val move size).toNat = (ringPlace place move).val := by
  have h₁ := (ringPlace place move).isLt
  show (UInt8.ofNat (ringPlace place move).val).toNat = (ringPlace place move).val
  rw [UInt8.toNat_ofNat']
  exact Nat.mod_eq_of_lt (by omega)

end BrainfuckBoard
