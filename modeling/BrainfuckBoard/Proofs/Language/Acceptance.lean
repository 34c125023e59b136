import BrainfuckBoard.Proofs.Language.Brackets

/- The compiler accepts the texts that can be encoded, and says of the others what is wrong with
   them first. The stretches of a draft are the texts since each `[` that is open (`Nested`), so
   that their words are counted by `wordCount`. A run adds to the innermost stretch, opens one or
   closes one (`Fed`), and as long as no `]` is at fault that is what it does to the text as well
   (`Reading.feed`, `Reading.foldlM`). -/
namespace BrainfuckBoard.Source

open Compiler (Draft)

/-- Runs of source text, and the stretches of code for them: one for what follows the last `[` that
    is open, and those before each such `[` from the inside out. -/
inductive Nested : List (UInt8 × Nat) → List Word → List (List Word) → Prop
  | bottom {text : List (UInt8 × Nat)} {code : List Word} (hbalanced : Balanced (written text))
      (hcode : code.length = runsWords text) : Nested text code []
  | loop {outer body : List (UInt8 × Nat)} {before code : List Word} {around : List (List Word)}
      (h : Nested outer before around) (hbalanced : Balanced (written body))
      (hcode : code.length = runsWords body) :
      Nested (outer ++ (opening, 1) :: body) code (before :: around)

/-- A draft for runs in which no `]` is at fault. -/
structure Reading (text : List (UInt8 × Nat)) (d : Draft) : Prop where
  nested : Nested text d.code d.around
  line : d.line = 1 + (written text).count Text.newline
  clean : Clean (written text)

/-- What a run does to a draft: it adds words, or it is a bracket. -/
inductive Fed (d : Draft) : UInt8 × Nat → Except CompileError Draft → Prop
  | plain {b : UInt8} {n : Nat} {d' : Draft} (hopen : b ≠ opening) (hclose : b ≠ closing)
      (hcode : d'.code.length = d.code.length + wordsFor b n) (haround : d'.around = d.around)
      (hline : d'.line = d.line + (List.replicate n b).count Text.newline) : Fed d (b, n) (.ok d')
  | opening : Fed d (opening, 1) (.ok d.openLoop)
  | closing {result : Except CompileError Draft} (h : d.closeLoop = result) : Fed d (closing, 1) result

/-- What a text gets that can be encoded. -/
structure Accepted (source : Bytes) (words : List Word) : Prop where
  fit : Encodable source
  clean : Clean source
  length : words.length = wordCount source + 1

/-- What a text gets that the compiler does not accept. -/
structure Refused (source : Bytes) (error : CompileError) : Prop where
  first : FirstFault source error
  unfit : ¬ Encodable source

section
variable {text more : List (UInt8 × Nat)} {run : UInt8 × Nat} {code code' before : List Word}
  {around : List (List Word)} {d d' : Draft} {op : Opcode} {source : Bytes} {error : CompileError}

/-! ## Stretches -/

theorem Nested.append (h : Nested text code around) (hbalanced : Balanced (written more))
    (hcode : code'.length = code.length + runsWords more) : Nested (text ++ more) code' around := by
  cases h with
  | bottom htext hwords =>
    refine .bottom ?_ ?_
    · rw [written_append]
      exact htext.append hbalanced
    · rw [hcode, hwords, runsWords_append]
  | loop houter hbody hwords =>
    rw [List.append_assoc, List.cons_append]
    refine .loop houter ?_ ?_
    · rw [written_append]
      exact hbody.append hbalanced
    · rw [hcode, hwords, runsWords_append]

theorem Nested.whole (h : Nested text code []) : Balanced (written text) ∧ code.length = runsWords text := by
  cases h with
  | bottom hbalanced hcode => exact ⟨hbalanced, hcode⟩

/-- There is a stretch around the innermost one for each `[` that is open. -/
theorem Nested.count (h : Nested text code around) :
    (written text).count opening = (written text).count closing + around.length := by
  induction h with
  | bottom hbalanced _ => exact hbalanced.total.symm
  | @loop outer body _ _ _ _ hbalanced _ ih =>
    rw [written_append, written_cons, List.count_append, List.count_append, List.count_cons_self,
      List.count_cons_of_ne (by decide : opening ≠ closing), hbalanced.total, ih, List.length_cons]
    omega

/-! ## One run -/

theorem byte_of_ofByte? {b : UInt8} (h : Opcode.ofByte? b = some op) : b = op.byte := by
  have hb : (op.byte == b) = true := List.find?_some (p := fun op : Opcode => op.byte == b) h
  exact (eq_of_beq hb).symm

theorem wordsFor_of_ofByte? {b : UInt8} (h : Opcode.ofByte? b = some op) (n : Nat) :
    wordsFor b n = op.wordsFor n := by
  rw [wordsFor, h]
  rfl

/-- A run is longer than one only if its byte carries a count. -/
theorem fed (d : Draft) {b : UInt8} {n : Nat} (hcount : isCounted b = true ∨ n = 1) :
    Fed d (b, n) (d.feed (b, n)) := by
  unfold Draft.feed
  dsimp only
  split
  · next hb =>
    subst hb
    obtain rfl : n = 1 := hcount.resolve_left (by decide)
    exact .plain (by decide) (by decide) rfl rfl rfl
  · next hb =>
    have hline : (List.replicate n b).count Text.newline = 0 := by
      rw [List.count_replicate, if_neg (by simpa using hb)]
    cases hop : Opcode.ofByte? b with
    | none =>
      -- A comment: neither a bracket nor a word.
      have hother : ∀ op : Opcode, b ≠ op.byte := fun op hb => by
        rw [hb, Opcode.ofByte?_byte] at hop
        cases hop
      have hwords : wordsFor b n = 0 := by
        rw [wordsFor, hop]
        rfl
      exact .plain (hother .jumpZero) (hother .jumpNonzero) (by rw [hwords, Nat.add_zero]) rfl
        (by rw [hline, Nat.add_zero])
    | some op =>
      have hwords : wordsFor b n = op.wordsFor n := wordsFor_of_ofByte? hop n
      obtain rfl := byte_of_ofByte? hop
      cases op with
      | right | left | add | sub =>
        refine .plain (by decide) (by decide) ?_ rfl (by rw [hline]; rfl)
        rw [hwords, Draft.emit, List.length_append, List.length_reverse, length_runWords rfl, Nat.add_comm]
      | output | input =>
        obtain rfl : n = 1 := hcount.resolve_left (by decide)
        exact .plain (by decide) (by decide) rfl rfl (by rw [hline]; rfl)
      | jumpZero =>
        obtain rfl : n = 1 := hcount.resolve_left (by decide)
        exact .opening
      | jumpNonzero =>
        obtain rfl : n = 1 := hcount.resolve_left (by decide)
        exact .closing rfl

theorem Reading.plain {b : UInt8} {n : Nat} (h : Reading text d) (hopen : b ≠ opening) (hclose : b ≠ closing)
    (hcode : d'.code.length = d.code.length + wordsFor b n) (haround : d'.around = d.around)
    (hline : d'.line = d.line + (List.replicate n b).count Text.newline) : Reading (text ++ [(b, n)]) d' where
  nested := by
    rw [haround]
    refine h.nested.append ?_ ?_
    · rw [written_singleton]
      exact balanced_replicate hopen hclose n
    · rw [hcode, runsWords_singleton]
  line := by
    rw [hline, h.line, written_append, written_singleton, List.count_append]
    omega
  clean := by
    rw [written_append, written_singleton]
    refine h.clean.append fun between after error heq => absurd ?_ hclose
    have hmem : closing ∈ List.replicate n b := heq ▸ by simp
    exact (List.eq_of_mem_replicate hmem).symm

theorem Reading.openLoop (h : Reading text d) : Reading (text ++ [(opening, 1)]) d.openLoop where
  nested := .loop h.nested balanced_nil rfl
  line := by
    rw [written_append, List.count_append]
    exact h.line
  clean := by
    rw [written_append]
    refine h.clean.append fun between after error heq => ?_
    have hmem : closing ∈ written [(opening, 1)] := heq ▸ by simp
    exact absurd hmem (by decide)

/-- Before a `]`: all is closed already, or the innermost stretch is the body of a loop. -/
theorem Reading.stretch (h : Reading text d) (hs : Separated text) :
    (d.around = [] ∧ Balanced (written text)) ∨ ∃ before around body, d.around = before :: around ∧
      Closes (written text) body ∧ d.code.length = wordCount body := by
  have hnested := h.nested
  cases ha : d.around with
  | nil =>
    rw [ha] at hnested
    exact .inl ⟨rfl, hnested.whole.1⟩
  | cons before around =>
    rw [ha] at hnested
    cases hnested with
    | @loop outer body _ _ _ houter hbalanced hcode =>
      rw [List.append_cons] at hs
      refine .inr ⟨before, around, written body, rfl, ⟨written outer, ?_, hbalanced⟩, ?_⟩
      · rw [written_append, written_cons]
      · rw [hcode, wordCount_written hs.right]

theorem Nested.closed (h : Nested text code (before :: around)) :
    Nested (text ++ [(closing, 1)]) (Draft.closedLoop code before) around := by
  cases h with
  | @loop outer body _ _ _ houter hbalanced hcode =>
    have hloop : written ((opening, 1) :: body ++ [(closing, 1)]) =
        opening :: (written body ++ [closing]) := by
      rw [written_append]
      rfl
    have hwords : runsWords ((opening, 1) :: body ++ [(closing, 1)]) = runsWords body + 2 := by
      rw [runsWords_append, runsWords_singleton]
      simp only [runsWords, List.map_cons, List.sum_cons]
      rw [show wordsFor opening 1 = 1 from rfl, show wordsFor closing 1 = 1 from rfl]
      omega
    rw [List.append_assoc]
    refine houter.append (hloop ▸ hbalanced.loop) ?_
    rw [hwords, ← hcode]
    simp only [Draft.closedLoop, List.length_cons, List.length_append]
    omega

theorem Reading.closeLoop (h : Reading text d) (hs : Separated text) (hd : d.closeLoop = .ok d') :
    Reading (text ++ [(closing, 1)]) d' := by
  rcases h.stretch hs with ⟨ha, -⟩ | ⟨before, around, body, ha, hcloses, hwords⟩
  · simp only [Draft.closeLoop, ha, reduceCtorEq] at hd
  · simp only [Draft.closeLoop, ha] at hd
    split at hd
    · cases hd
    · next hshort =>
      cases hd
      have hnested := h.nested
      rw [ha] at hnested
      refine ⟨hnested.closed, ?_, ?_⟩
      · rw [written_append, List.count_append]
        exact h.line
      · rw [written_append]
        refine h.clean.append fun between after error heq hfault => ?_
        have hlast : between = [] := by
          have hlength : 1 = (between ++ closing :: after).length := congrArg List.length heq
          rw [List.length_append, List.length_cons] at hlength
          exact List.length_eq_zero_iff.mp (by omega)
        rw [hlast, List.append_nil] at hfault
        cases hfault with
        | unmatched hnone => exact hnone body hcloses
        | tooLong hbody hlong => exact hshort (by rw [hwords, hcloses.unique hbody]; exact hlong)

theorem Reading.fault (h : Reading text d) (hs : Separated text) (hd : d.closeLoop = .error error) :
    Fault (written text) error ∧ ∀ after, ¬ Encodable (written text ++ closing :: after) := by
  rcases h.stretch hs with ⟨ha, hbalanced⟩ | ⟨before, around, body, ha, hcloses, hwords⟩
  · simp only [Draft.closeLoop, ha] at hd
    cases hd
    rw [h.line]
    refine ⟨.unmatched fun body => hbalanced.not_closes, fun after hfit => ?_⟩
    exact hbalanced.not_balanced after hfit.balanced
  · simp only [Draft.closeLoop, ha] at hd
    split at hd
    · next hlong =>
      cases hd
      rw [hwords] at hlong ⊢
      rw [h.line]
      exact ⟨.tooLong hcloses hlong, fun after hfit =>
        Nat.not_lt_of_le (hfit.reached _ body after rfl hcloses) hlong⟩
    · cases hd

theorem Reading.feed (h : Reading text d) (hs : Separated (text ++ [run])) (hd : d.feed run = .ok d') :
    Reading (text ++ [run]) d' := by
  have hfed : Fed d run (d.feed run) := fed d (hs.counts run (by simp)).2
  rw [hd] at hfed
  cases hfed with
  | plain hopen hclose hcode haround hline => exact h.plain hopen hclose hcode haround hline
  | opening => exact h.openLoop
  | closing hclose => exact h.closeLoop hs.left hclose

/-- The compiler stops at a `]` only, and then that is at fault. -/
theorem Reading.stop (h : Reading text d) (hs : Separated (text ++ [run])) (hd : d.feed run = .error error) :
    run = (closing, 1) ∧ Fault (written text) error ∧
      ∀ after, ¬ Encodable (written text ++ closing :: after) := by
  have hfed : Fed d run (d.feed run) := fed d (hs.counts run (by simp)).2
  rw [hd] at hfed
  cases hfed with
  | closing hclose => exact ⟨rfl, h.fault hs.left hclose⟩

theorem Reading.foldlM : ∀ {rest text : List (UInt8 × Nat)} {d : Draft}, Reading text d →
    Separated (text ++ rest) → match rest.foldlM Draft.feed d with
      | .ok d' => Reading (text ++ rest) d'
      | .error error => Refused (written (text ++ rest)) error
  | [], text, d, h, _ => by
    rw [List.append_nil]
    exact h
  | run :: rest, text, d, h, hs => by
    rw [List.append_cons] at hs ⊢
    rw [List.foldlM_cons]
    cases hd : d.feed run with
    | error error =>
      obtain ⟨rfl, hfault, hunfit⟩ := h.stop hs.left hd
      show Refused _ error
      rw [List.append_assoc, List.singleton_append, written_append, written_cons]
      exact ⟨.atClosing rfl h.clean hfault, hunfit _⟩
    | ok d' => exact Reading.foldlM (h.feed hs.left hd) hs

/-! ## The whole text -/

theorem Reading.accepted (h : Reading text d) (hs : Separated text) (ha : d.around = []) :
    Accepted (written text) (d.code.reverse ++ [Word.halt]) := by
  have hnested := h.nested
  rw [ha] at hnested
  obtain ⟨hbalanced, hcode⟩ := hnested.whole
  refine ⟨⟨hbalanced, fun before body after heq hcloses => ?_⟩, h.clean, ?_⟩
  · refine Nat.le_of_not_lt fun hlong => ?_
    exact h.clean before after _ heq (.tooLong hcloses hlong)
  · rw [List.length_append, List.length_reverse, hcode, wordCount_written hs]
    rfl

theorem Reading.refused (h : Reading text d) (ha : d.around ≠ []) :
    Refused (written text) (.unmatchedOpen d.around.length) := by
  have hcount := h.nested.count
  have hopen : 0 < d.around.length := List.length_pos_iff.mpr ha
  refine ⟨?_, fun hfit => ?_⟩
  · rw [show d.around.length = (written text).count opening - (written text).count closing by omega]
    exact .atEnd h.clean (by omega)
  · have htotal := hfit.balanced.total
    omega

/-- The last `]` has no partner, but a loop before it is too long already. -/
example : compile (Text.utf8 "[\n[]\n[..............]\n]]") = .error (.loopTooLong 3 16) := by decide +kernel

end

end BrainfuckBoard.Source
