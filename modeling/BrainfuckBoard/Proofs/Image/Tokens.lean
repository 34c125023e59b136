import Mathlib.Data.List.Forall2
import BrainfuckBoard.Image.HexText

/- The tokens of a text of hexadecimal bytes, as a grammar. A line is what it says up to its first
   comment (`Uncommented`), with blanks between its words (`Spaced`), and each word is cleaned of
   separators and a mark (`Cleaned`). `Tokenized` puts the lines together. Every text is read in
   exactly one way, and that is how the reader cuts it (`tokenized_iff`). -/
namespace BrainfuckBoard

namespace Text

section
variable {isSeparator : UInt8 → Bool} {gap word rest line text : Bytes} {b : UInt8}

/-! ## Fields -/

theorem fields_separator (h : isSeparator b = true) :
    fields isSeparator (b :: rest) = [] :: fields isSeparator rest := by
  simp [fields, h]

theorem fields_cons (h : isSeparator b = false) {field : Bytes} {more : List Bytes}
    (hrest : fields isSeparator rest = field :: more) :
    fields isSeparator (b :: rest) = (b :: field) :: more := by
  unfold fields at hrest ⊢
  rw [List.foldr_cons, hrest, h]
  rfl

/-- A stretch without a separator is part of the first field. -/
theorem fields_append (h : ∀ b ∈ word, isSeparator b = false) {field : Bytes} {more : List Bytes}
    (hrest : fields isSeparator rest = field :: more) :
    fields isSeparator (word ++ rest) = (word ++ field) :: more := by
  induction word with
  | nil => exact hrest
  | cons b word ih =>
    obtain ⟨hb, hword⟩ := List.forall_mem_cons.mp h
    exact fields_cons hb (ih hword)

/-! ## Lines -/

theorem lines_last (h : newline ∉ line) : lines line = [line] := by
  have hline : ∀ b ∈ line, (b == newline) = false := fun b hb => by
    rw [beq_eq_false_iff_ne]
    rintro rfl
    exact h hb
  have hlast : fields (· == newline) (line ++ []) = [line ++ []] := fields_append hline rfl
  rwa [List.append_nil] at hlast

theorem lines_cons (h : newline ∉ line) : lines (line ++ newline :: text) = line :: lines text := by
  have hline : ∀ b ∈ line, (b == newline) = false := fun b hb => by
    rw [beq_eq_false_iff_ne]
    rintro rfl
    exact h hb
  have hnext : fields (· == newline) (newline :: text) = [] :: lines text := fields_separator rfl
  have hcut := fields_append hline hnext
  rwa [List.append_nil] at hcut

/-! ## Words -/

theorem words_blank (h : isBlank b = true) : words (b :: rest) = words rest := by
  unfold words
  rw [fields_separator h]
  rfl

theorem words_gap (h : ∀ b ∈ gap, isBlank b = true) : words (gap ++ rest) = words rest := by
  induction gap with
  | nil => rfl
  | cons b gap ih =>
    obtain ⟨hb, hgap⟩ := List.forall_mem_cons.mp h
    rw [List.cons_append, words_blank hb, ih hgap]

/-- A word that ends before a blank or with the line. -/
theorem words_word (h : ∀ b ∈ word, isBlank b = false) (hword : word ≠ [])
    (hrest : ∀ b, rest.head? = some b → isBlank b = true) : words (word ++ rest) = word :: words rest := by
  have hone : fields isBlank rest = [] :: (fields isBlank rest).tail := by
    cases rest with
    | nil => rfl
    | cons b rest => rw [fields_separator (hrest b rfl)]; rfl
  unfold words
  rw [fields_append h hone, hone]
  simp [hword]

end

/-- Words with blanks between them. -/
inductive Spaced : Bytes → List Bytes → Prop
  | blank {gap : Bytes} (hgap : ∀ b ∈ gap, isBlank b = true) : Spaced gap []
  | word {gap word rest : Bytes} {words : List Bytes} (hgap : ∀ b ∈ gap, isBlank b = true)
      (hword : ∀ b ∈ word, isBlank b = false) (hne : word ≠ [])
      (hends : ∀ b, rest.head? = some b → isBlank b = true) (hrest : Spaced rest words) :
      Spaced (gap ++ word ++ rest) (word :: words)

theorem Spaced.eq {s : Bytes} {ws : List Bytes} (h : Spaced s ws) : ws = words s := by
  induction h with
  | blank hgap =>
    have hnone : words (_ ++ []) = words [] := words_gap hgap
    rw [List.append_nil] at hnone
    exact hnone.symm
  | word hgap hword hne hends _ ih => rw [List.append_assoc, words_gap hgap, words_word hword hne hends, ih]

theorem Spaced.mem {s : Bytes} {ws : List Bytes} (h : Spaced s ws) :
    ∀ b ∈ s, isBlank b = true ∨ ∃ word ∈ ws, b ∈ word := by
  induction h with
  | blank hgap => exact fun b hb => .inl (hgap b hb)
  | word hgap _ _ _ _ ih =>
    intro b hb
    rw [List.mem_append, List.mem_append, or_assoc] at hb
    rcases hb with hb | hb | hb
    · exact .inl (hgap b hb)
    · exact .inr ⟨_, List.mem_cons_self, hb⟩
    · exact (ih b hb).imp_right fun ⟨w, hword, hb⟩ => ⟨w, List.mem_cons_of_mem _ hword, hb⟩

/-- Every text is words with blanks between them. -/
theorem exists_spaced (s : Bytes) : ∃ ws, Spaced s ws := by
  have hblank : ∀ b ∈ ([] : Bytes), isBlank b = true := nofun
  induction s with
  | nil => exact ⟨[], .blank hblank⟩
  | cons b s ih =>
    obtain ⟨ws, hs⟩ := ih
    cases hb : isBlank b with
    | true =>
      cases hs with
      | blank hgap => exact ⟨[], .blank (List.forall_mem_cons.mpr ⟨hb, hgap⟩)⟩
      | @word gap word rest ws hgap hword hne hends hrest =>
        exact ⟨word :: ws, @Spaced.word (b :: gap) word rest ws (List.forall_mem_cons.mpr ⟨hb, hgap⟩) hword hne
          hends hrest⟩
    | false =>
      have hone : ∀ c ∈ [b], isBlank c = false := fun c hc => by rwa [List.mem_singleton.mp hc]
      by_cases hhead : ∀ c, s.head? = some c → isBlank c = true
      · exact ⟨[b] :: ws, @Spaced.word [] [b] s ws hblank hone (List.cons_ne_nil _ _) hhead hs⟩
      · -- The word goes on in what follows.
        cases hs with
        | blank hgap => exact absurd (fun c hc => hgap c (List.mem_of_head? hc)) hhead
        | @word gap word rest ws hgap hword hne hends hrest =>
          cases gap with
          | nil =>
            exact ⟨(b :: word) :: ws, @Spaced.word [] (b :: word) rest ws hblank
              (List.forall_mem_cons.mpr ⟨hb, hword⟩) (List.cons_ne_nil _ _) hends hrest⟩
          | cons c gap =>
            refine absurd (fun d hd => ?_) hhead
            cases hd
            exact hgap c (List.mem_cons_self)

theorem spaced_iff {s : Bytes} {ws : List Bytes} : Spaced s ws ↔ ws = words s := by
  refine ⟨Spaced.eq, ?_⟩
  rintro rfl
  obtain ⟨ws, hs⟩ := exists_spaced s
  exact hs.eq ▸ hs

end Text

namespace HexText

open Text

/-! ## Comments -/

def openers : List Bytes := [utf8 "#", utf8 ";", utf8 "//"]

/-- A comment begins here. -/
def OpensComment (s : Bytes) : Prop := ∃ opener ∈ openers, opener <+: s

/-- What a line says: all of it, up to the first place where a comment begins. -/
structure Uncommented (line code : Bytes) : Prop where
  comment : ∃ comment, line = code ++ comment ∧ (comment = [] ∨ OpensComment comment)
  first : ∀ i < code.length, ¬OpensComment (line.drop i)

/-! ## Words and tokens -/

def separators : Bytes := utf8 ",_"

def marks : List Bytes := [utf8 "0x", utf8 "0X"]

/-- A word without its separators. -/
def bare (word : Bytes) : Bytes := word.filter (· ∉ separators)

/-- The token that a word stands for: a mark with something after it is not part of it. -/
inductive Cleaned (word : Bytes) : Bytes → Prop
  | marked {mark token : Bytes} (hmark : mark ∈ marks) (hne : token ≠ []) (h : bare word = mark ++ token) :
      Cleaned word token
  | plain (h : ∀ mark ∈ marks, ∀ token, token ≠ [] → bare word ≠ mark ++ token) : Cleaned word (bare word)

/-- The tokens of a line. A word of separators only is none. -/
def LineTokens (line : Bytes) (toks : List Bytes) : Prop :=
  ∃ code ws cleaned, Uncommented line code ∧ Spaced code ws ∧ List.Forall₂ Cleaned ws cleaned ∧
    toks = cleaned.filter (· ≠ [])

/-- The tokens of a text whose first line has number `n`, each with its line. -/
inductive Tokenized : Nat → Bytes → List (Bytes × Nat) → Prop
  | last {n : Nat} {line : Bytes} {toks : List Bytes} (hline : newline ∉ line) (h : LineTokens line toks) :
      Tokenized n line (toks.map (·, n))
  | more {n : Nat} {line text : Bytes} {toks : List Bytes} {rest : List (Bytes × Nat)}
      (hline : newline ∉ line) (h : LineTokens line toks) (hrest : Tokenized (n + 1) text rest) :
      Tokenized n (line ++ newline :: text) (toks.map (·, n) ++ rest)

section
variable {line code word token s : Bytes} {b : UInt8} {n : Nat} {text : Bytes}

theorem opensComment_iff : OpensComment s ↔
    (∃ rest, s = 35 :: rest) ∨ (∃ rest, s = 59 :: rest) ∨ ∃ rest, s = 47 :: 47 :: rest := by
  have hopeners : openers = [[35], [59], [47, 47]] := by decide +kernel
  simp [OpensComment, hopeners, List.IsPrefix, eq_comm]

theorem cutComment_opens (h : OpensComment s) : cutComment s = [] := by
  obtain ⟨rest, rfl⟩ | ⟨rest, rfl⟩ | ⟨rest, rfl⟩ := opensComment_iff.mp h
  · rfl
  · rfl
  · simp [cutComment, beforeSlashes]

theorem cutComment_cons (h : ¬OpensComment (b :: s)) : cutComment (b :: s) = b :: cutComment s := by
  rw [opensComment_iff, not_or, not_or] at h
  obtain ⟨hhash, hsemicolon, hslashes⟩ := h
  have hkeep : (b != 35 && b != 59) = true := by
    rw [Bool.and_eq_true, bne_iff_ne, bne_iff_ne]
    exact ⟨fun hb => hhash ⟨s, by rw [hb]⟩, fun hb => hsemicolon ⟨s, by rw [hb]⟩⟩
  unfold cutComment
  rw [List.takeWhile_cons_of_pos (p := fun b => b != 35 && b != 59) hkeep, beforeSlashes]
  intro rest hb hrest
  cases s with
  | nil => exact absurd hrest nofun
  | cons c s =>
    rw [List.takeWhile_cons] at hrest
    split at hrest
    · cases hrest
      exact hslashes ⟨s, by rw [hb]⟩
    · exact absurd hrest nofun

theorem uncommented_iff : Uncommented line code ↔ code = cutComment line := by
  constructor
  · rintro ⟨⟨comment, rfl, hcomment⟩, hfirst⟩
    induction code with
    | nil =>
      rcases hcomment with rfl | hopens
      · rfl
      · exact (cutComment_opens hopens).symm
    | cons b code ih =>
      have hb : ¬OpensComment (b :: (code ++ comment)) := hfirst 0 (Nat.succ_pos _)
      rw [List.cons_append, cutComment_cons hb, ← ih fun i hi => hfirst (i + 1) (Nat.succ_lt_succ hi)]
  · rintro rfl
    induction line with
    | nil => exact ⟨⟨[], rfl, .inl rfl⟩, nofun⟩
    | cons b line ih =>
      by_cases hopens : OpensComment (b :: line)
      · rw [cutComment_opens hopens]
        exact ⟨⟨b :: line, rfl, .inr hopens⟩, nofun⟩
      · obtain ⟨⟨comment, hline, hcomment⟩, hfirst⟩ := ih
        rw [cutComment_cons hopens]
        refine ⟨⟨comment, congrArg (b :: ·) hline, hcomment⟩, ?_⟩
        rintro (_ | i) hi
        · exact hopens
        · exact hfirst i (Nat.lt_of_succ_lt_succ hi)

theorem bare_eq : bare word = word.filter fun b => b != 44 && b != 95 := by
  have hseparators : separators = [44, 95] := by decide +kernel
  refine List.filter_congr fun b _ => ?_
  rw [Bool.eq_iff_iff]
  simp [hseparators]

theorem cutMark_marked {mark : Bytes} (hmark : mark ∈ marks) (hne : token ≠ []) :
    cutMark (mark ++ token) = token := by
  have hmarks : marks = [[48, 120], [48, 88]] := by decide +kernel
  obtain ⟨d, rest, rfl⟩ := List.exists_cons_of_ne_nil hne
  rw [hmarks] at hmark
  rcases List.mem_pair.mp hmark with rfl | rfl <;> rfl

theorem cutMark_plain (h : ∀ mark ∈ marks, ∀ token, token ≠ [] → s ≠ mark ++ token) : cutMark s = s := by
  have hmarks : marks = [[48, 120], [48, 88]] := by decide +kernel
  rw [hmarks] at h
  unfold cutMark
  split
  · next x d rest =>
    rw [if_neg]
    rw [Bool.or_eq_true, beq_iff_eq, beq_iff_eq, not_or]
    exact ⟨fun hx => h [48, 120] (by simp) (d :: rest) (List.cons_ne_nil _ _) (by rw [hx]; rfl),
      fun hx => h [48, 88] (by simp) (d :: rest) (List.cons_ne_nil _ _) (by rw [hx]; rfl)⟩
  · rfl

theorem cleaned_iff : Cleaned word token ↔ token = clean word := by
  have hclean : clean word = cutMark (bare word) := by rw [bare_eq]; rfl
  rw [hclean]
  constructor
  · rintro (⟨hmark, hne, hword⟩ | hplain)
    · rw [hword, cutMark_marked hmark hne]
    · exact (cutMark_plain hplain).symm
  · rintro rfl
    by_cases hmarked : ∃ mark ∈ marks, ∃ token, token ≠ [] ∧ bare word = mark ++ token
    · obtain ⟨mark, hmark, token, hne, hword⟩ := hmarked
      rw [hword, cutMark_marked hmark hne]
      exact .marked hmark hne hword
    · have hplain : ∀ mark ∈ marks, ∀ token, token ≠ [] → bare word ≠ mark ++ token :=
        fun mark hmark token hne hword => hmarked ⟨mark, hmark, token, hne, hword⟩
      rw [cutMark_plain hplain]
      exact .plain hplain

theorem forall_cleaned_iff {ws cleaned : List Bytes} :
    List.Forall₂ Cleaned ws cleaned ↔ cleaned = ws.map clean := by
  have hrel : Cleaned = fun word token => clean word = token := by
    funext word token
    exact propext (cleaned_iff.trans eq_comm)
  rw [hrel, ← List.forall₂_map_left_iff (R := Eq), List.forall₂_eq_eq_eq, eq_comm]

theorem lineTokens_iff {toks : List Bytes} : LineTokens line toks ↔ toks = lineTokens line := by
  unfold LineTokens
  simp only [uncommented_iff, spaced_iff, forall_cleaned_iff, exists_and_left, exists_eq_left]
  rfl

/-! ## Lines -/

/-- The tokens of a text whose first line has number `n`. -/
def tokensFrom (n : Nat) (text : Bytes) : List (Bytes × Nat) :=
  ((lines text).zipIdx n).flatMap fun (line, n) => (lineTokens line).map fun token => (token, n)

theorem tokensFrom_last (h : newline ∉ line) : tokensFrom n line = (lineTokens line).map (·, n) := by
  rw [tokensFrom, lines_last h]
  exact List.append_nil _

theorem tokensFrom_more (h : newline ∉ line) :
    tokensFrom n (line ++ newline :: text) = (lineTokens line).map (·, n) ++ tokensFrom (n + 1) text := by
  rw [tokensFrom, lines_cons h]
  rfl

theorem Tokenized.eq {toks : List (Bytes × Nat)} (h : Tokenized n text toks) : toks = tokensFrom n text := by
  induction h with
  | last hline h => rw [tokensFrom_last hline, lineTokens_iff.mp h]
  | more hline h _ ih => rw [tokensFrom_more hline, lineTokens_iff.mp h, ih]

theorem tokenized_tokensFrom (n : Nat) (text : Bytes) : Tokenized n text (tokensFrom n text) := by
  induction hlength : text.length using Nat.strongRecOn generalizing n text with
  | ind length ih =>
    by_cases hline : newline ∈ text
    · obtain ⟨line, rest, rfl, hfirst⟩ := List.eq_append_cons_of_mem hline
      have hrest : Tokenized (n + 1) rest (tokensFrom (n + 1) rest) :=
        ih rest.length (by rw [← hlength, List.length_append, List.length_cons]; omega) _ _ rfl
      rw [tokensFrom_more hfirst]
      exact .more hfirst (lineTokens_iff.mpr rfl) hrest
    · rw [tokensFrom_last hline]
      exact .last hline (lineTokens_iff.mpr rfl)

/-- A text is cut into tokens in one way only, which is the reader's. -/
theorem tokenized_iff {toks : List (Bytes × Nat)} : Tokenized 1 text toks ↔ toks = tokens text :=
  ⟨Tokenized.eq, fun h => h ▸ tokenized_tokensFrom 1 text⟩

end

end HexText

end BrainfuckBoard
