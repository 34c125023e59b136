import BrainfuckBoard.Proofs.Language.Stretches

/- Which texts can be encoded, and what is wrong with the others, said of the text alone. Brackets
   match by their numbers: a `]` closes the loop at a `[` if the text between them is balanced.
   There is at most one such `[` for it (`Closes.unique`), and none where everything before it is
   balanced already (`Balanced.not_closes`). -/
namespace BrainfuckBoard.Source

def opening : UInt8 := Opcode.jumpZero.byte
def closing : UInt8 := Opcode.jumpNonzero.byte

/-- No `]` comes before its `[`, and none of them is missing. -/
structure Balanced (text : Bytes) : Prop where
  ahead : ∀ before, before <+: text → before.count closing ≤ before.count opening
  total : text.count closing = text.count opening

/-- A `]` after this text closes the loop with this body. -/
def Closes (before body : Bytes) : Prop := ∃ outer, before = outer ++ opening :: body ∧ Balanced body

/-- The brackets match, and a jump reaches from each of them to its partner. -/
structure Encodable (source : Bytes) : Prop where
  balanced : Balanced source
  reached : ∀ before body after, source = before ++ closing :: after → Closes before body →
    wordCount body ≤ 13

/-- What is wrong with a `]` after this text. Lines are counted from 1. -/
inductive Fault (before : Bytes) : CompileError → Prop
  | unmatched (h : ∀ body, ¬ Closes before body) :
      Fault before (.unmatchedClose (1 + before.count Text.newline))
  | tooLong {body : Bytes} (h : Closes before body) (hlong : 13 < wordCount body) :
      Fault before (.loopTooLong (1 + before.count Text.newline) (wordCount body + 2))

/-- Nothing is wrong with any `]`. -/
def Clean (text : Bytes) : Prop :=
  ∀ before after error, text = before ++ closing :: after → ¬ Fault before error

/-- The first thing that is wrong, from the left. That a `[` has no partner is known at the end
    of the text only. -/
inductive FirstFault (source : Bytes) : CompileError → Prop
  | atClosing {before after : Bytes} {error : CompileError} (hsource : source = before ++ closing :: after)
      (hclean : Clean before) (h : Fault before error) : FirstFault source error
  | atEnd (hclean : Clean source) (hopen : source.count closing < source.count opening) :
      FirstFault source (.unmatchedOpen (source.count opening - source.count closing))

section
variable {text more body body' before : Bytes} {b : UInt8}

/-! ## Balanced texts -/

theorem balanced_nil : Balanced [] := by
  refine ⟨fun before h => ?_, rfl⟩
  rw [List.prefix_nil.mp h]
  exact Nat.le_refl _

instance (text : Bytes) : Decidable (Balanced text) :=
  decidable_of_iff
    ((∀ n < text.length + 1, (text.take n).count closing ≤ (text.take n).count opening) ∧
      text.count closing = text.count opening)
    ⟨fun h => ⟨fun before hp => List.prefix_iff_eq_take.mp hp ▸
        h.1 before.length (Nat.lt_succ_of_le hp.length_le), h.2⟩,
      fun h => ⟨fun n _ => h.ahead _ (List.take_prefix n text), h.total⟩⟩

theorem prefix_append_cases {α : Type} {p s t : List α} (h : p <+: s ++ t) :
    p <+: s ∨ ∃ q, p = s ++ q ∧ q <+: t := by
  obtain ⟨r, hr⟩ := h
  rcases List.append_eq_append_iff.mp hr with ⟨q, rfl, -⟩ | ⟨q, rfl, ht⟩
  · exact .inl (List.prefix_append _ _)
  · exact .inr ⟨q, rfl, r, ht.symm⟩

theorem Balanced.append (h : Balanced text) (h' : Balanced more) : Balanced (text ++ more) := by
  refine ⟨fun before hp => ?_, ?_⟩
  · rcases prefix_append_cases hp with hp | ⟨q, rfl, hq⟩
    · exact h.ahead before hp
    · rw [List.count_append, List.count_append, h.total]
      exact Nat.add_le_add_left (h'.ahead q hq) _
  · rw [List.count_append, List.count_append, h.total, h'.total]

theorem balanced_replicate (hopen : b ≠ opening) (hclose : b ≠ closing) (n : Nat) :
    Balanced (List.replicate n b) := by
  have hnone : ∀ {c before}, b ≠ c → before <+: List.replicate n b → before.count c = 0 := by
    intro c before hb hp
    refine List.count_eq_zero.mpr fun hc => hb ?_
    exact (List.eq_of_mem_replicate (hp.subset hc)).symm
  refine ⟨fun before hp => ?_, ?_⟩
  · rw [hnone hclose hp]
    exact Nat.zero_le _
  · rw [hnone hclose (List.prefix_refl _), hnone hopen (List.prefix_refl _)]

theorem Balanced.loop (h : Balanced body) : Balanced (opening :: (body ++ [closing])) := by
  have hopening : ∀ s : Bytes, (opening :: s).count opening = s.count opening + 1 ∧
      (opening :: s).count closing = s.count closing :=
    fun s => ⟨List.count_cons_self, List.count_cons_of_ne (by decide)⟩
  have hclosing : [closing].count opening = 0 ∧ [closing].count closing = 1 := by decide
  refine ⟨fun before hp => ?_, ?_⟩
  · rcases before with - | ⟨c, inner⟩
    · exact Nat.zero_le _
    · obtain ⟨rfl, hinner⟩ := List.cons_prefix_cons.mp hp
      rw [(hopening inner).1, (hopening inner).2]
      rcases List.prefix_concat_iff.mp hinner with rfl | hinner
      · rw [List.count_append, List.count_append, hclosing.1, hclosing.2, h.total]
      · exact Nat.le_succ_of_le (h.ahead inner hinner)
  · rw [(hopening _).1, (hopening _).2, List.count_append, List.count_append, hclosing.1, hclosing.2, h.total]

/-! ## Partners -/

/-- In a balanced text something closes the loop. -/
theorem Balanced.not_closes (h : Balanced before) : ¬ Closes before body := by
  rintro ⟨outer, rfl, hbody⟩
  have houter : outer.count closing ≤ outer.count opening := h.ahead outer (List.prefix_append _ _)
  have htotal := h.total
  rw [List.count_append, List.count_append, List.count_cons_self,
    List.count_cons_of_ne (by decide : opening ≠ closing), hbody.total] at htotal
  omega

/-- A text does not become balanced again once a `]` has no partner. -/
theorem Balanced.not_balanced (h : Balanced before) (after : Bytes) :
    ¬ Balanced (before ++ closing :: after) := by
  intro hall
  have hahead := hall.ahead (before ++ [closing]) ⟨after, by rw [List.append_assoc]; rfl⟩
  rw [List.count_append, List.count_append, h.total, List.count_cons_self,
    List.count_cons_of_ne (by decide : closing ≠ opening)] at hahead
  simp only [List.count_nil] at hahead
  omega

theorem Closes.unique (h : Closes before body) (h' : Closes before body') : body = body' := by
  obtain ⟨outer, rfl, hbody⟩ := h
  obtain ⟨outer', heq, hbody'⟩ := h'
  -- The longer one of two bodies would be a text in which the `[` of the other is closed.
  rcases List.append_eq_append_iff.mp heq with ⟨s, rfl, hs⟩ | ⟨s, rfl, hs⟩
  · cases s with
    | nil => exact (List.cons.inj hs).2
    | cons c s =>
      obtain ⟨rfl, rfl⟩ := List.cons.inj hs
      exact absurd ⟨s, rfl, hbody'⟩ hbody.not_closes
  · cases s with
    | nil => exact (List.cons.inj hs).2.symm
    | cons c s =>
      obtain ⟨rfl, rfl⟩ := List.cons.inj hs
      exact absurd ⟨s, rfl, hbody⟩ hbody'.not_closes

/-! ## Faults -/

theorem Fault.unique {error error' : CompileError} (h : Fault before error) (h' : Fault before error') :
    error = error' := by
  cases h with
  | unmatched hnone =>
    cases h' with
    | unmatched _ => rfl
    | tooLong hcloses _ => exact absurd hcloses (hnone _)
  | tooLong hcloses _ =>
    cases h' with
    | unmatched hnone => exact absurd hcloses (hnone _)
    | tooLong hcloses' _ => rw [hcloses.unique hcloses']

/-- A fault does not come before the end of a clean text. -/
theorem Clean.le_of_fault {before' after after' : Bytes} {error : CompileError} (h : Clean before)
    (hfault : Fault before' error) (heq : before ++ closing :: after = before' ++ closing :: after') :
    before.length ≤ before'.length := by
  rcases List.append_eq_append_iff.mp heq with ⟨s, rfl, -⟩ | ⟨s, rfl, hs⟩
  · rw [List.length_append]
    exact Nat.le_add_right _ _
  · cases s with
    | nil => rw [List.append_nil]
    | cons c s =>
      obtain ⟨rfl, -⟩ := List.cons.inj hs
      exact absurd hfault (h before' s error rfl)

theorem FirstFault.unique {source : Bytes} {error error' : CompileError} (h : FirstFault source error)
    (h' : FirstFault source error') : error = error' := by
  cases h with
  | atClosing hsource hclean hfault =>
    cases h' with
    | atClosing hsource' hclean' hfault' =>
      have heq := hsource.symm.trans hsource'
      have hle := hclean.le_of_fault hfault' heq
      have hge := hclean'.le_of_fault hfault heq.symm
      obtain ⟨rfl, -⟩ := List.append_inj heq (Nat.le_antisymm hle hge)
      exact hfault.unique hfault'
    | atEnd hclean' _ => exact absurd hfault (hclean' _ _ _ hsource)
  | atEnd hclean _ =>
    cases h' with
    | atClosing hsource' _ hfault' => exact absurd hfault' (hclean _ _ _ hsource')
    | atEnd _ _ => rfl

/-- What is read behind a clean text is clean if each `]` in it is all right there. -/
theorem Clean.append (h : Clean text) (hmore : ∀ between after error,
    more = between ++ closing :: after → ¬ Fault (text ++ between) error) : Clean (text ++ more) := by
  intro before after error heq
  rcases List.append_eq_append_iff.mp heq with ⟨s, rfl, hs⟩ | ⟨s, rfl, hs⟩
  · exact hmore s after error hs
  · cases s with
    | nil =>
      rw [List.append_nil] at hmore
      exact List.append_nil before ▸ hmore [] after error hs.symm
    | cons c s =>
      obtain ⟨rfl, -⟩ := List.cons.inj hs
      exact h before s error rfl

end

end BrainfuckBoard.Source
