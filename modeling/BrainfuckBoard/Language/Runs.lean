import BrainfuckBoard.Instruction.Opcode

/- Source text cut into runs. Adjacent equal bytes form one run if they are a
   command that carries a count (`+`, `-`, `>`, `<`); every other byte is a run
   of its own. A comment or a line end between two equal commands keeps them
   apart. Writing the runs out again gives the source back. -/
namespace BrainfuckBoard

/-- The commands whose repetitions fit into the argument of one word. -/
def Opcode.isCounted : Opcode → Bool
  | .right | .left | .add | .sub => true
  | .output | .input | .jumpZero | .jumpNonzero => false

namespace Source

def isCounted (b : UInt8) : Bool := ((Opcode.ofByte? b).map Opcode.isCounted).getD false

/-- Each run is its byte and its length. -/
def runs (source : Bytes) : List (UInt8 × Nat) :=
  source.foldr (fun b found =>
    match found with
    | (c, n) :: rest => if b == c && isCounted b then (b, n + 1) :: rest else (b, 1) :: (c, n) :: rest
    | [] => [(b, 1)]) []

theorem flatMap_runs (source : Bytes) :
    (runs source).flatMap (fun r => List.replicate r.2 r.1) = source := by
  induction source with
  | nil => rfl
  | cons b source ih =>
    have hr : runs (b :: source) = match runs source with
        | (c, n) :: rest =>
          if b == c && isCounted b then (b, n + 1) :: rest else (b, 1) :: (c, n) :: rest
        | [] => [(b, 1)] := rfl
    rw [hr]
    cases h : runs source with
    | nil => rw [h] at ih; simpa using ih
    | cons r rest =>
      obtain ⟨c, n⟩ := r
      rw [h] at ih
      by_cases hb : (b == c && isCounted b) = true
      · have hc : b = c := by simp at hb; exact hb.1
        subst hc
        simp only [hb, if_true, List.flatMap_cons] at ih ⊢
        rw [List.replicate_succ, List.cons_append, ih]
      · simp only [hb]
        simpa using ih

end Source

end BrainfuckBoard
