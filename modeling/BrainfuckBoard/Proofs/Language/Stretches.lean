import BrainfuckBoard.Proofs.Language.Layout
import Mathlib.Algebra.Ring.Nat
import Mathlib.Data.List.SplitBy

/- How many words a stretch of source text takes. `wordCount` is about the text alone: it is cut
   where a byte is followed by another one, and each piece is counted by itself. `Source.runs`
   keeps bytes apart that do not carry a count, which makes no difference to the number of words
   (`wordCount_written`). -/
namespace BrainfuckBoard

/-- The words that `n` equal commands in a row take, the last of them not always full. -/
def Opcode.wordsFor (op : Opcode) (n : Nat) : Nat :=
  match op with
  | .add | .sub => (n + 30) / 31
  | .right | .left => (n + 14) / 15
  | .output | .input | .jumpZero | .jumpNonzero => n

namespace Source

/-- The words for a byte that stands `n` times in a row. Comments take none. -/
def wordsFor (b : UInt8) (n : Nat) : Nat := ((Opcode.ofByte? b).map (·.wordsFor n)).getD 0

/-- The words for a stretch of text. -/
def wordCount (stretch : Bytes) : Nat :=
  ((stretch.splitBy (· == ·)).map fun equal => (equal.head?.map (wordsFor · equal.length)).getD 0).sum

/-- The text of some runs. -/
def written (runs : List (UInt8 × Nat)) : Bytes := runs.flatMap fun r => List.replicate r.2 r.1

def runsWords (runs : List (UInt8 × Nat)) : Nat := (runs.map fun r => wordsFor r.1 r.2).sum

/-- Runs of which no two neighbours could be one. -/
structure Separated (runs : List (UInt8 × Nat)) : Prop where
  counts : ∀ r ∈ runs, 0 < r.2 ∧ (isCounted r.1 = true ∨ r.2 = 1)
  apart : runs.IsChain fun r next => r.1 = next.1 → isCounted r.1 = false

section
variable {b : UInt8} {n : Nat} {text source : Bytes} {runs first second : List (UInt8 × Nat)}

/-! ## The runs of a text -/

theorem written_append : written (first ++ second) = written first ++ written second :=
  List.flatMap_append ..

theorem written_singleton (b : UInt8) (n : Nat) : written [(b, n)] = List.replicate n b :=
  List.flatMap_singleton ..

theorem written_cons (b : UInt8) (rest : List (UInt8 × Nat)) :
    written ((b, 1) :: rest) = b :: written rest := rfl

theorem runsWords_append : runsWords (first ++ second) = runsWords first + runsWords second := by
  simp only [runsWords, List.map_append, List.sum_append]

theorem runsWords_singleton (b : UInt8) (n : Nat) : runsWords [(b, n)] = wordsFor b n := by
  simp only [runsWords, List.map_cons, List.map_nil, List.sum_cons, List.sum_nil, Nat.add_zero]

theorem Separated.left (h : Separated (first ++ second)) : Separated first :=
  ⟨fun r hr => h.counts r (List.mem_append_left _ hr), h.apart.left_of_append⟩

theorem Separated.right (h : Separated (first ++ second)) : Separated second :=
  ⟨fun r hr => h.counts r (List.mem_append_right _ hr), h.apart.right_of_append⟩

/-! ## The words of a text -/

theorem wordsFor_uncounted (h : isCounted b = false) (n : Nat) : wordsFor b n = n * wordsFor b 1 := by
  unfold wordsFor
  unfold isCounted at h
  cases hop : Opcode.ofByte? b with
  | none => rfl
  | some op =>
    rw [hop] at h
    cases op with
    | output | input | jumpZero | jumpNonzero => exact (Nat.mul_one n).symm
    | _ => exact absurd h.symm Bool.false_ne_true

theorem wordCount_replicate_append (hn : 0 < n) (h : text.head? ≠ some b) :
    wordCount (List.replicate n b ++ text) = wordsFor b n + wordCount text := by
  have hsplit : (List.replicate n b ++ text).splitBy (· == ·) =
      List.replicate n b :: text.splitBy (· == ·) := by
    have hends : ∀ x ∈ (List.replicate n b).getLast?, ∀ y ∈ text.head?, (x == y) = false := by
      intro x hx y hy
      rw [List.getLast?_replicate, if_neg (by omega)] at hx
      cases hx
      exact beq_false_of_ne fun hby => h (hby ▸ hy)
    have hone : (List.replicate n b).IsChain fun x y => (x == y) = true :=
      List.isChain_replicate_of_rel n (beq_self_eq_true b)
    have hne : List.replicate n b ≠ [] := fun hnil => by
      rw [List.replicate_eq_nil_iff] at hnil
      omega
    rw [List.splitBy_append hends, List.splitBy_of_isChain hne hone]
    rfl
  have hhead : (List.replicate n b).head? = some b := by
    rw [List.head?_replicate, if_neg (by omega)]
  rw [wordCount, hsplit, List.map_cons, List.sum_cons, hhead, List.length_replicate]
  rfl

/-- A byte that does not carry a count takes what it takes, whatever it stands beside. -/
theorem wordCount_cons (h : isCounted b = false) (text : Bytes) :
    wordCount (b :: text) = wordsFor b 1 + wordCount text := by
  have htext : text = List.replicate (text.takeWhile (· == b)).length b ++ text.dropWhile (· == b) := by
    have hall : text.takeWhile (· == b) = List.replicate (text.takeWhile (· == b)).length b :=
      List.eq_replicate_of_mem fun x hx => by simpa using List.all_eq_true.mp List.all_takeWhile x hx
    rw [← hall, List.takeWhile_append_dropWhile]
  have hrest : (text.dropWhile (· == b)).head? ≠ some b := fun hhead => by
    have := List.head?_dropWhile_not (· == b) text
    rw [hhead] at this
    simp at this
  generalize (text.takeWhile (· == b)).length = m at htext
  generalize text.dropWhile (· == b) = rest at htext hrest
  subst htext
  have hrow : ∀ k, wordCount (List.replicate k b ++ rest) = k * wordsFor b 1 + wordCount rest
    | 0 => by rw [Nat.zero_mul, Nat.zero_add]; rfl
    | k + 1 => by rw [wordCount_replicate_append (Nat.succ_pos k) hrest, wordsFor_uncounted h]
  rw [← List.cons_append, ← List.replicate_succ, hrow, hrow, Nat.succ_mul]
  omega

theorem wordCount_written (h : Separated runs) : wordCount (written runs) = runsWords runs := by
  induction runs with
  | nil => rfl
  | cons run rest ih =>
    obtain ⟨c, n⟩ := run
    obtain ⟨hn, hcount⟩ := h.counts (c, n) List.mem_cons_self
    have hrest : wordCount (written rest) = runsWords rest :=
      ih ⟨fun r hr => h.counts r (List.mem_cons_of_mem _ hr), h.apart.tail⟩
    show wordCount (List.replicate n c ++ written rest) = wordsFor c n + runsWords rest
    cases hc : isCounted c with
    | false =>
      obtain rfl : n = 1 := by simpa [hc] using hcount
      rw [← hrest]
      exact wordCount_cons hc _
    | true =>
      rw [← hrest]
      refine wordCount_replicate_append hn fun hhead => ?_
      cases rest with
      | nil => exact absurd hhead nofun
      | cons next rest =>
        have hnext := (h.counts next (by simp)).1
        have hsame : (written (next :: rest)).head? = some next.1 := by
          simp [written, List.head?_append, List.head?_replicate, Nat.pos_iff_ne_zero.mp hnext]
        rw [hsame] at hhead
        cases hhead
        have hfalse := (List.isChain_cons_cons.mp h.apart).1 rfl
        exact absurd (hc.symm.trans hfalse) (by decide)

/-- The number of words that the compiler makes of a run of a counted command. -/
theorem length_runWords {op : Opcode} (h : op.isCounted = true) (n : Nat) :
    (Compiler.runWords op n).length = op.wordsFor n := by
  have hwords : (n % op.maxCount = 0 → op.wordsFor n = n / op.maxCount) ∧
      (n % op.maxCount ≠ 0 → op.wordsFor n = n / op.maxCount + 1) := by
    cases op with
    | right | left | add | sub =>
      simp only [Opcode.maxCount, Opcode.wordsFor]
      omega
    | _ => exact absurd h Bool.false_ne_true
  unfold Compiler.runWords
  rw [List.length_append, List.length_replicate]
  split
  · next hr => rw [hwords.1 hr, List.length_nil, Nat.add_zero]
  · next hr => rw [hwords.2 hr, List.length_singleton]

end

end Source

end BrainfuckBoard
