import BrainfuckBoard.Proofs.Language.Acceptance
import BrainfuckBoard.Proofs.Language.Located

/- Words read back as text. A word stands for its command as many times as it says, and the words
   of a source text stand for the text without its comments (`Laid.expansion`). No word but the
   last is a halt word (`Laid.legible`), and each `]` ends a loop whose jumps lead past it and back
   to its `[` (`Laid.looped`). Which `[` that is, is said of the commands alone: `Encloses`. -/
namespace BrainfuckBoard

namespace Word

/-- How many times a word carries out its command. -/
def count (w : Word) : Nat :=
  match w.opcode with
  | .right | .left => w.signedArg.toNat
  | .add | .sub => w.arg.toNat
  | .output | .input | .jumpZero | .jumpNonzero => 1

/-- The text that a word stands for. -/
def text (w : Word) : Bytes := List.replicate w.count w.opcode.byte

/-- A word that is not a halt word, with an argument that the compiler may give it. -/
structure Legible (w : Word) : Prop where
  ne_zero : w ≠ 0
  moves : w.opcode = .right ∨ w.opcode = .left → 1 ≤ w.signedArg ∧ w.signedArg ≤ 15
  changes : w.opcode = .add ∨ w.opcode = .sub → 1 ≤ w.arg.toNat ∧ w.arg.toNat ≤ 31

end Word

/-- The text that words stand for. -/
def expansion (words : List Word) : Bytes := words.flatMap Word.text

/-- The commands of words, once each. -/
def symbols (words : List Word) : Bytes := words.map fun w => w.opcode.byte

/-- The brackets at the addresses `a` and `b` match: those between them match one another. -/
structure Encloses (words : List Word) (a b : Nat) (first last : Word) : Prop where
  opens : first.opcode = .jumpZero
  closes : last.opcode = .jumpNonzero
  first : words[a]? = some first
  last : words[b]? = some last
  before : a < b
  between : Source.Balanced (symbols ((words.drop (a + 1)).take (b - (a + 1))))

/-- The jump back after these words leads to the jump past it, with a body between them in which
    the brackets match. -/
inductive ClosesLoop : List Word → Word → Prop
  | intro (outer body : List Word) (hlen : body.length ≤ maxLoopBody)
      (hbalanced : Source.Balanced (symbols body)) :
      ClosesLoop (outer ++ Word.skip body.length :: body) (Word.again body.length)

/-- Every `]` ends a loop. -/
def Looped (ws : List Word) : Prop :=
  ∀ before last after, ws = before ++ last :: after → last.opcode = .jumpNonzero → ClosesLoop before last

/-- Every byte but these eight is a comment. -/
def Source.isCommand (b : UInt8) : Bool := (Text.utf8 "><+-.,[]").contains b

/-- The commands of some code, with the brackets of its loops. -/
def Code.opcodes : Code → List Opcode
  | done => []
  | act action rest => action.opcode :: rest.opcodes
  | loop body rest => .jumpZero :: (body.opcodes ++ .jumpNonzero :: rest.opcodes)

/-! ## The commands of a source text -/

namespace Source

theorem isCommand_eq (b : UInt8) : isCommand b = (Opcode.ofByte? b).isSome := by
  have hbytes : Text.utf8 "><+-.,[]" = Opcode.all.map Opcode.byte := by decide +kernel
  rw [isCommand, hbytes, Bool.eq_iff_iff, List.contains_iff_mem, List.mem_map, Opcode.ofByte?,
    List.find?_isSome]
  simp only [beq_iff_eq]

/-- The commands of a text, written again. -/
theorem map_commands (source : Bytes) : (Code.commands source).map Opcode.byte = source.filter isCommand := by
  induction source with
  | nil => rfl
  | cons b source ih =>
    have hb := isCommand_eq b
    cases hop : Opcode.ofByte? b with
    | none =>
      rw [hop] at hb
      rw [Code.commands, List.filterMap_cons_none hop, List.filter_cons_of_neg (by simp [hb])]
      exact ih
    | some op =>
      rw [hop] at hb
      rw [Code.commands, List.filterMap_cons_some hop, List.filter_cons_of_pos hb, List.map_cons,
        ← byte_of_ofByte? hop]
      exact congrArg (b :: ·) ih

end Source

namespace Code

theorem opcodes_times (action : Action) (rest : Code) :
    ∀ n, (times action n rest).opcodes = List.replicate n action.opcode ++ rest.opcodes
  | 0 => rfl
  | n + 1 => by
    rw [times, opcodes, opcodes_times action rest n]
    rfl

/-- The commands that have been read are those of the code, and of the codes after each bracket
    that it does not open. -/
theorem opcodes_of_parse {ops : List Opcode} {code : Code} {after : List Code}
    (h : parse ops = some (code, after)) :
    ops = code.opcodes ++ after.flatMap fun next => .jumpNonzero :: next.opcodes := by
  induction ops generalizing code after with
  | nil =>
    cases h
    rfl
  | cons op ops ih =>
    cases hread : parse ops with
    | none => simp [parse, hread] at h
    | some read =>
      obtain ⟨inner, outer⟩ := read
      have hops := ih hread
      rcases Action.exists_opcode op with ⟨action, rfl⟩ | rfl | rfl
      · rw [parse_action, hread] at h
        cases h
        rw [hops]
        rfl
      · cases outer with
        | nil => simp [parse, hread] at h
        | cons next outer =>
          simp only [parse, hread, Option.some.injEq, Prod.mk.injEq] at h
          obtain ⟨rfl, rfl⟩ := h
          rw [hops]
          simp [opcodes]
      · simp only [parse, hread, Option.some.injEq, Prod.mk.injEq] at h
        obtain ⟨rfl, rfl⟩ := h
        rw [hops]
        simp [opcodes]

theorem opcodes_of_source {source : Bytes} {code : Code} (h : ofSource? source = some code) :
    code.opcodes = commands source := by
  unfold ofSource? at h
  split at h
  · next read hread =>
    cases h
    have hops := opcodes_of_parse hread
    rw [List.flatMap_nil, List.append_nil] at hops
    exact hops.symm
  · cases h

end Code

section
variable {op : Opcode} {action : Action} {code : Code} {n : Nat} {ws : List Word} {w : Word}

/-! ## One word -/

namespace Word

theorem arg_encode_counted (h : n ≤ op.maxCount) : (encode op n).arg.toNat = n := by
  have hsmall : n < 32 := by
    cases op <;> simp only [Opcode.maxCount] at h <;> omega
  rw [arg_encode, Nat.mod_eq_of_lt hsmall]

/-- A counted word carries out its command as often as it was asked to. -/
theorem count_encode (h₀ : 0 < n) (h₁ : n ≤ op.maxCount) : (encode op n).count = n := by
  have harg := arg_encode_counted h₁
  cases op with
  | right | left =>
    have hsigned : ∀ op, (encode op n).signedArg = n := fun op => signedArg_encode op (Nat.lt_succ_of_le h₁)
    rw [count, opcode_encode]
    dsimp only
    rw [hsigned, Int.toNat_natCast]
  | add | sub =>
    rw [count, opcode_encode]
    exact harg
  | _ => exact absurd h₁ (Nat.not_le_of_gt h₀)

theorem legible_encode (h₀ : 0 < n) (h₁ : n ≤ op.maxCount) : (encode op n).Legible := by
  have harg := arg_encode_counted h₁
  have hne : encode op n ≠ 0 := by
    intro hzero
    rw [hzero] at harg
    exact absurd harg (Nat.ne_of_lt h₀)
  refine ⟨hne, fun hmove => ?_, fun hchange => ?_⟩
  · rw [opcode_encode] at hmove
    have hshort : n ≤ 15 := by
      rcases hmove with rfl | rfl <;> exact h₁
    rw [signedArg_encode op (Nat.lt_succ_of_le hshort)]
    omega
  · rw [opcode_encode] at hchange
    have hshort : n ≤ 31 := by
      rcases hchange with rfl | rfl <;> exact h₁
    rw [harg]
    exact ⟨h₀, hshort⟩

/-- The other words stand for their command once. -/
theorem legible_of_uncounted (h : w.opcode.isCounted = false) : w.Legible := by
  refine ⟨?_, ?_, ?_⟩
  · rintro rfl
    exact absurd h (by decide)
  · rintro (hop | hop) <;> rw [hop] at h <;> exact absurd h (by decide)
  · rintro (hop | hop) <;> rw [hop] at h <;> exact absurd h (by decide)

theorem text_of_uncounted (h : w.opcode.isCounted = false) : w.text = [w.opcode.byte] := by
  have hcount : w.count = 1 := by
    unfold count
    generalize w.opcode = op at h
    cases op with
    | right | left | add | sub => exact absurd h.symm Bool.false_ne_true
    | _ => rfl
  rw [text, hcount]
  rfl

theorem uncounted_skip (n : Nat) : (skip n).opcode.isCounted = false := by
  rw [opcode_skip]
  rfl

theorem uncounted_again (n : Nat) : (again n).opcode.isCounted = false := by
  rw [opcode_again]
  rfl

end Word

/-! ## The words of some code -/

theorem expansion_cons (w : Word) (ws : List Word) : expansion (w :: ws) = w.text ++ expansion ws := rfl

theorem expansion_append (vs ws : List Word) : expansion (vs ++ ws) = expansion vs ++ expansion ws :=
  List.flatMap_append

theorem symbols_append (vs ws : List Word) : symbols (vs ++ ws) = symbols vs ++ symbols ws :=
  List.map_append

theorem symbols_loop (body ws : List Word) {first last : Word} (hfirst : first.opcode = .jumpZero)
    (hlast : last.opcode = .jumpNonzero) : symbols (first :: (body ++ last :: ws)) =
      Source.opening :: (symbols body ++ [Source.closing]) ++ symbols ws := by
  simp [symbols, hfirst, hlast, Source.opening, Source.closing]

theorem Laid.expansion (h : Laid code ws) :
    BrainfuckBoard.expansion ws = code.opcodes.map Opcode.byte := by
  induction h with
  | done => rfl
  | counted h₀ h₁ _ ih =>
    rw [expansion_cons, ih, Word.text, Word.count_encode h₀ h₁, Word.opcode_encode, Code.opcodes_times,
      List.map_append, List.map_replicate]
  | @single action _ _ hs _ ih =>
    have hop := Word.opcode_encode action.opcode 0
    rw [expansion_cons, ih, Word.text_of_uncounted (by rw [hop]; exact hs), hop]
    rfl
  | loop _ _ _ hbody hrest =>
    rw [expansion_cons, expansion_append, expansion_cons, hbody, hrest,
      Word.text_of_uncounted (Word.uncounted_skip _), Word.text_of_uncounted (Word.uncounted_again _),
      Word.opcode_skip, Word.opcode_again]
    simp [Code.opcodes]

theorem Laid.legible (h : Laid code ws) : ∀ w ∈ ws, w.Legible := by
  induction h with
  | done => exact nofun
  | counted h₀ h₁ _ ih => exact List.forall_mem_cons.mpr ⟨Word.legible_encode h₀ h₁, ih⟩
  | single hs _ ih =>
    exact List.forall_mem_cons.mpr ⟨Word.legible_of_uncounted (by rw [Word.opcode_encode]; exact hs), ih⟩
  | loop _ _ _ hbody hrest =>
    refine List.forall_mem_cons.mpr ⟨Word.legible_of_uncounted (Word.uncounted_skip _), ?_⟩
    refine List.forall_mem_append.mpr ⟨hbody, ?_⟩
    exact List.forall_mem_cons.mpr ⟨Word.legible_of_uncounted (Word.uncounted_again _), hrest⟩

/-! ## Brackets among words -/

theorem Action.byte_ne_bracket (action : Action) :
    action.opcode.byte ≠ Source.opening ∧ action.opcode.byte ≠ Source.closing := by
  cases action <;> decide

theorem Laid.balanced (h : Laid code ws) : Source.Balanced (symbols ws) := by
  have plain : ∀ (action : Action) (n : Nat) {ws : List Word}, Source.Balanced (symbols ws) →
      Source.Balanced (symbols (Word.encode action.opcode n :: ws)) := by
    intro action n ws hws
    obtain ⟨hopen, hclose⟩ := action.byte_ne_bracket
    have hall := (Source.balanced_replicate hopen hclose 1).append hws
    rwa [← Word.opcode_encode action.opcode n] at hall
  induction h with
  | done => exact Source.balanced_nil
  | counted _ _ _ ih => exact plain _ _ ih
  | single _ _ ih => exact plain _ _ ih
  | loop _ _ _ hbody hrest =>
    rw [symbols_loop _ _ (Word.opcode_skip _) (Word.opcode_again _)]
    exact hbody.loop.append hrest

theorem ClosesLoop.cons {before : List Word} {last : Word} (h : ClosesLoop before last) (vs : List Word) :
    ClosesLoop (vs ++ before) last := by
  cases h with
  | intro outer body hlen hbalanced =>
    rw [← List.append_assoc]
    exact .intro (vs ++ outer) body hlen hbalanced

theorem Looped.cons (h : Looped ws) (hw : w.opcode ≠ .jumpNonzero) : Looped (w :: ws) := by
  intro before last after heq hlast
  cases before with
  | nil =>
    obtain ⟨rfl, -⟩ := List.cons.inj heq
    exact absurd hlast hw
  | cons v before =>
    obtain ⟨rfl, htail⟩ := List.cons.inj heq
    exact (h before last after htail hlast).cons [w]

theorem Looped.loop {body : List Word} (h : Looped ws) (hbody : Looped body)
    (hlen : body.length ≤ maxLoopBody) (hbalanced : Source.Balanced (symbols body)) :
    Looped (Word.skip body.length :: (body ++ Word.again body.length :: ws)) := by
  intro before last after heq hlast
  cases before with
  | nil =>
    obtain ⟨rfl, -⟩ := List.cons.inj heq
    rw [Word.opcode_skip] at hlast
    cases hlast
  | cons v before =>
    obtain ⟨rfl, htail⟩ := List.cons.inj heq
    -- The `]` is in the body, or it is the one that ends the loop, or it comes after that.
    rcases List.append_eq_append_iff.mp htail with ⟨s, rfl, hs⟩ | ⟨s, rfl, hs⟩
    · cases s with
      | nil =>
        obtain ⟨rfl, -⟩ := List.cons.inj hs
        rw [List.append_nil]
        exact .intro [] body hlen hbalanced
      | cons u s =>
        obtain ⟨rfl, hws⟩ := List.cons.inj hs
        have hlater := (h s last after hws hlast).cons (Word.skip body.length :: (body ++ [Word.again body.length]))
        simpa using hlater
    · cases s with
      | nil =>
        obtain ⟨rfl, -⟩ := List.cons.inj hs
        rw [List.append_nil] at hbalanced hlen ⊢
        exact .intro [] before hlen hbalanced
      | cons u s =>
        obtain ⟨rfl, -⟩ := List.cons.inj hs
        exact (hbody before last s rfl hlast).cons [_]

theorem Laid.looped (h : Laid code ws) : Looped ws := by
  have haction : ∀ (action : Action) (n : Nat), (Word.encode action.opcode n).opcode ≠ .jumpNonzero := by
    intro action n
    rw [Word.opcode_encode]
    cases action <;> exact nofun
  induction h with
  | done => exact fun before last after heq => absurd heq (by simp)
  | counted _ _ _ ih => exact ih.cons (haction _ _)
  | single _ _ ih => exact ih.cons (haction _ _)
  | loop hlaid hlen _ hbody hrest => exact hrest.loop hbody hlen hlaid.balanced

/-- A halt word has no part in it. -/
theorem Looped.halted (h : Looped ws) : Looped (ws ++ [Word.halt]) := by
  intro before last after heq hlast
  rcases List.append_eq_append_iff.mp heq with ⟨s, rfl, hs⟩ | ⟨s, rfl, hs⟩
  · have hhalt : last = Word.halt := by
      have hmem : last ∈ [Word.halt] := hs ▸ by simp
      exact List.mem_singleton.mp hmem
    rw [hhalt] at hlast
    exact absurd hlast (by decide)
  · cases s with
    | nil =>
      obtain ⟨rfl, -⟩ := List.cons.inj hs
      exact absurd hlast (by decide)
    | cons u s =>
      obtain ⟨rfl, -⟩ := List.cons.inj hs
      exact h before last s rfl hlast

/-! ## Partners -/

variable {words : List Word} {a b : Nat} {first last : Word} {source : Bytes}

theorem Encloses.take_eq (h : Encloses words a b first last) : words.take b =
    words.take a ++ first :: (words.drop (a + 1)).take (b - (a + 1)) := by
  obtain ⟨ha, hfirst⟩ := List.getElem?_eq_some_iff.mp h.first
  have hlong : a < (words.take b).length := by
    rw [List.length_take]
    exact Nat.lt_min.mpr ⟨h.before, ha⟩
  have hsplit : words.take b = (words.take b).take a ++ (words.take b).drop a :=
    (List.take_append_drop a _).symm
  rw [hsplit, List.take_take, Nat.min_eq_left (Nat.le_of_lt h.before), List.drop_eq_getElem_cons hlong,
    List.getElem_take, hfirst, List.drop_take]

/-- Between two partners the brackets match, so the words before the second of them close with
    what stands there. -/
theorem Encloses.closes_between (h : Encloses words a b first last) :
    Source.Closes (symbols (words.take b)) (symbols ((words.drop (a + 1)).take (b - (a + 1)))) := by
  have hfirst : first.opcode.byte = Source.opening := congrArg Opcode.byte h.opens
  refine ⟨symbols (words.take a), ?_, h.between⟩
  rw [h.take_eq, symbols_append, ← hfirst]
  rfl

theorem split_at (h : words[b]? = some last) : words = words.take b ++ last :: words.drop (b + 1) := by
  obtain ⟨hb, hlast⟩ := List.getElem?_eq_some_iff.mp h
  have hdrop : words.drop b = last :: words.drop (b + 1) := by
    rw [List.drop_eq_getElem_cons hb, hlast]
  rw [← hdrop, List.take_append_drop]

/-- The two jumps of a loop are as long as they have to be. -/
theorem Looped.jumps (h : Looped words) (hpair : Encloses words a b first last) :
    (a : Int) + first.signedArg = b + 1 ∧ (b : Int) + last.signedArg = a := by
  have hcloses := hpair.closes_between
  have htake := hpair.take_eq
  have hloop : ClosesLoop (words.take b) last := h _ _ _ (split_at hpair.last) hpair.closes
  have hlength : (words.take b).length = b := by
    obtain ⟨hb, -⟩ := List.getElem?_eq_some_iff.mp hpair.last
    rw [List.length_take, Nat.min_eq_left (Nat.le_of_lt hb)]
  generalize (words.drop (a + 1)).take (b - (a + 1)) = between at hcloses htake
  generalize words.take b = before at hcloses htake hloop hlength
  cases hloop with
  | intro outer body hlen hbalanced =>
    -- There is only one body that a `]` can close.
    have hbody : Source.Closes (symbols (outer ++ Word.skip body.length :: body)) (symbols body) := by
      refine ⟨symbols outer, ?_, hbalanced⟩
      rw [symbols_append, Source.opening, ← Word.opcode_skip body.length]
      rfl
    have hsame : between.length = body.length := by
      have heq := congrArg List.length (hcloses.unique hbody)
      rwa [symbols, symbols, List.length_map, List.length_map] at heq
    obtain ⟨htaken, hrest⟩ := List.append_inj' htake (by rw [List.length_cons, List.length_cons, hsame])
    obtain ⟨rfl, -⟩ := List.cons.inj hrest
    have houter : outer.length = a := by
      have hle : a ≤ words.length := by
        obtain ⟨ha, -⟩ := List.getElem?_eq_some_iff.mp hpair.first
        exact Nat.le_of_lt ha
      rw [htaken, List.length_take, Nat.min_eq_left hle]
    rw [List.length_append, List.length_cons, houter] at hlength
    rw [Word.signedArg_skip hlen, Word.signedArg_again hlen]
    omega

/-- Each `]` has a partner. -/
theorem Looped.partner (h : Looped words) (hlast : words[b]? = some last)
    (hop : last.opcode = .jumpNonzero) : ∃ a first, Encloses words a b first last := by
  have hloop : ClosesLoop (words.take b) last := h _ _ _ (split_at hlast) hop
  have hsplit := split_at hlast
  have hlength : (words.take b).length = b := by
    obtain ⟨hb, -⟩ := List.getElem?_eq_some_iff.mp hlast
    rw [List.length_take, Nat.min_eq_left (Nat.le_of_lt hb)]
  generalize words.take b = before at hloop hsplit hlength
  generalize words.drop (b + 1) = after at hsplit
  subst hsplit
  cases hloop with
  | intro outer body hlen hbalanced =>
    have hfirst : (outer ++ Word.skip body.length :: body ++ Word.again body.length :: after)[outer.length]? =
        some (Word.skip body.length) := by simp
    have hbody : ((outer ++ Word.skip body.length :: body ++ Word.again body.length :: after).drop
        (outer.length + 1)).take body.length = body := by
      rw [List.append_assoc, List.cons_append, List.append_cons, List.drop_left' (by simp),
        List.take_left]
    rw [List.length_append, List.length_cons] at hlength
    refine ⟨outer.length, _, Word.opcode_skip _, hop, hfirst, hlast, by omega, ?_⟩
    rwa [show b - (outer.length + 1) = body.length by omega, hbody]

/-! ## The words of a source text -/

/-- What words say about the text that they were made of. -/
structure Expands (source : Bytes) (words : List Word) : Prop where
  text : expansion words.dropLast = source.filter Source.isCommand
  last : words.getLast? = some Word.halt
  legible : ∀ w ∈ words.dropLast, w.Legible
  jumps : ∀ a b first last, Encloses words a b first last →
    (a : Int) + first.signedArg = b + 1 ∧ (b : Int) + last.signedArg = a
  partner : ∀ b last, words[b]? = some last → last.opcode = .jumpNonzero →
    ∃ a first, Encloses words a b first last

/-- The words of a source text stand for it, less its comments. -/
theorem expands_of_compile (h : compile source = .ok words) : Expands source words := by
  obtain ⟨code, ws, hcode, hlaid, rfl⟩ := compile_laid h
  have hlooped : Looped (ws ++ [Word.halt]) := hlaid.looped.halted
  refine ⟨?_, List.getLast?_concat .., ?_, fun a b first last => hlooped.jumps, fun b last => hlooped.partner⟩
  · rw [List.dropLast_concat, hlaid.expansion, Code.opcodes_of_source hcode, Source.map_commands]
  · rw [List.dropLast_concat]
    exact hlaid.legible

/-- `+[>[-]<.]` with a long run, a comment and a line break in it. -/
theorem expands_of_compile_nested :
    let source := Text.utf8 "+++++[>>>>>>>>>>>>>>>>>[-] to\n<.]"
    let words : List Word := [69, 201, 15, 2, 195, 97, 254, 33, 128, 248, 0]
    compile source = .ok words ∧ Expands source words ∧
      Encloses words 1 9 201 248 ∧ Encloses words 4 6 195 254 := by
  intro source words
  have hcompile : compile source = .ok words := by decide +kernel
  exact ⟨hcompile, expands_of_compile hcompile,
    ⟨by decide, by decide, by decide, by decide, by decide, by decide +kernel⟩,
    ⟨by decide, by decide, by decide, by decide, by decide, by decide +kernel⟩⟩

end

end BrainfuckBoard
