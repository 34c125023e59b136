import Mathlib.Data.List.Induction
import BrainfuckBoard.Image.ProgramFile
import BrainfuckBoard.Proofs.Image.Tokens
import BrainfuckBoard.Proofs.Serial.Waveform

/- The format of a text of hexadecimal bytes. A token is good if it is hexadecimal digits for a
   value of at most 255. The reader gives the values of the tokens if all are good and there is
   one at least, and else says what is wrong with the first that is not, and where
   (`Decided`, `decided_read`). So it gives back every list of bytes that is not empty from every
   text that lays it out (`TextOf`, `read_format`), as a file of the bytes themselves does. -/
namespace BrainfuckBoard.HexText

open Text

/-! ## Digits -/

def alphabets : List Bytes := [utf8 "0123456789abcdef", utf8 "0123456789ABCDEF"]

/-- A digit of value `d`, in either case. -/
def DigitOf (b : UInt8) (d : Nat) : Prop := ∃ alphabet ∈ alphabets, alphabet[d]? = some b

instance {b : UInt8} {d : Nat} : Decidable (DigitOf b d) :=
  inferInstanceAs (Decidable (∃ alphabet ∈ alphabets, alphabet[d]? = some b))

/-- Digits and the number they stand for, the last digit counting for least. -/
inductive Digits : Bytes → Nat → Prop
  | none : Digits [] 0
  | next {s : Bytes} {v d : Nat} {b : UInt8} (hs : Digits s v) (hb : DigitOf b d) : Digits (s ++ [b]) (16 * v + d)

/-- What is wrong with a token that is no byte, and how this is worded. -/
inductive Fault (token : Bytes) : String → Prop
  | notHex {b : UInt8} (hb : b ∈ token) (h : ∀ d, ¬DigitOf b d) : Fault token "non-hex token"
  | tooLong {v : Nat} (h : Digits token v) (hv : 2 ^ 64 ≤ v) : Fault token "parse error for token"
  | outOfRange {v : Nat} (h : Digits token v) (hv : 255 < v) (hmax : v < 2 ^ 64) : Fault token "byte out of range"

/-- A token, with its line, that stands for a byte. -/
def TokenOf (token : Bytes × Nat) (byte : UInt8) : Prop := Digits token.1 byte.toNat

/-- The result of reading a text that is cut into these tokens. -/
structure Decided (toks : List (Bytes × Nat)) (result : Except Error Bytes) : Prop where
  accepted : ∀ bytes, result = .ok bytes ↔ bytes ≠ [] ∧ List.Forall₂ TokenOf toks bytes
  empty : toks = [] → ∃ e, result = .error e ∧
    ∀ path, e.message path = utf8 "no bytes read from '" ++ path ++ utf8 "'"
  rejected : toks ≠ [] → (∀ bytes, ¬List.Forall₂ TokenOf toks bytes) →
    ∃ before token line after wording e, toks = before ++ (token, line) :: after ∧
      (∀ good ∈ before, ∃ byte, TokenOf good byte) ∧ Fault token wording ∧ result = .error e ∧
      ∀ path, e.message path = utf8 wording ++ utf8 " '" ++ token ++ utf8 s!"' at line {line}"

section
variable {b byte : UInt8} {d v n : Nat} {s token : Bytes} {bytes : Bytes} {toks : List (Bytes × Nat)} {e : Error}

theorem digitOf_iff : DigitOf b d ↔ hexDigit? b = some d := by
  constructor
  · rintro ⟨alphabet, halphabet, h⟩
    have hall : ∀ alphabet ∈ alphabets, alphabet.length = 16 ∧
        ∀ d < 16, hexDigit? (alphabet.getD d 0) = some d := by decide +kernel
    obtain ⟨hlength, hvalue⟩ := hall alphabet halphabet
    have hd : d < alphabet.length := (List.getElem?_eq_some_iff.mp h).1
    have hb : alphabet.getD d 0 = b := by rw [List.getD_eq_getElem?_getD, h, Option.getD_some]
    exact hb ▸ hvalue d (hlength ▸ hd)
  · have hall : ∀ n : Fin 256, ∀ d ∈ hexDigit? (UInt8.ofNat n), DigitOf (UInt8.ofNat n) d := by decide +kernel
    exact forall_byte (p := fun b => ∀ d ∈ hexDigit? b, DigitOf b d) hall b d

theorem isHexDigit_iff : isHexDigit b = true ↔ ∃ d, DigitOf b d := by
  simp only [digitOf_iff, isHexDigit, Option.isSome_iff_exists]

theorem hexValue_append : hexValue (s ++ [b]) = 16 * hexValue s + (hexDigit? b).getD 0 := by
  rw [hexValue, List.foldl_append]
  rfl

theorem digits_iff : Digits s v ↔ s.all isHexDigit = true ∧ hexValue s = v := by
  constructor
  · intro h
    induction h with
    | none => exact ⟨rfl, rfl⟩
    | next _ hb ih =>
      have hdigit := digitOf_iff.mp hb
      rw [List.all_append, ih.1, hexValue_append, ih.2, hdigit]
      refine ⟨?_, rfl⟩
      simp [isHexDigit, hdigit]
  · rintro ⟨hs, rfl⟩
    induction s using List.reverseRecOn with
    | nil => exact .none
    | append_singleton s b ih =>
      rw [List.all_append, Bool.and_eq_true] at hs
      obtain ⟨d, hb⟩ := isHexDigit_iff.mp (List.all_eq_true.mp hs.2 b (List.mem_singleton_self b))
      rw [hexValue_append, digitOf_iff.mp hb]
      exact .next (ih hs.1) hb

/-! ## Tokens -/

theorem tokenByte_ok : tokenByte (token, n) = .ok byte ↔ Digits token byte.toNat := by
  rw [digits_iff]
  unfold tokenByte
  dsimp only
  cases hall : token.all isHexDigit with
  | false => simp
  | true =>
    have hbyte := byte.toNat_lt
    rw [if_neg (by decide), maxNumeral]
    split
    · next hlong =>
      refine iff_of_false nofun fun h => ?_
      omega
    · split
      · next hlarge =>
        refine iff_of_false nofun fun h => ?_
        omega
      · next hsmall =>
        rw [Except.ok.injEq, ← UInt8.toNat_inj, UInt8.toNat_ofNat', Nat.mod_eq_of_lt (by omega)]
        exact (and_iff_right rfl).symm

theorem tokenByte_error (h : tokenByte (token, n) = .error e) :
    ∃ wording, Fault token wording ∧
      ∀ path, e.message path = utf8 wording ++ utf8 " '" ++ token ++ utf8 s!"' at line {n}" := by
  unfold tokenByte at h
  dsimp only at h
  split at h
  · next hall =>
    cases h
    simp only [Bool.not_eq_true', List.all_eq_false, isHexDigit_iff, not_exists] at hall
    obtain ⟨b, hb, hno⟩ := hall
    exact ⟨_, .notHex hb hno, fun _ => rfl⟩
  · next hall =>
    have hdigits : Digits token (hexValue token) := digits_iff.mpr ⟨by simpa using hall, rfl⟩
    split at h
    · next hlong =>
      cases h
      exact ⟨_, .tooLong hdigits hlong, fun _ => rfl⟩
    · next hlong =>
      split at h
      · next hlarge =>
        cases h
        exact ⟨_, .outOfRange hdigits hlarge (Nat.lt_succ_of_le (Nat.le_of_not_lt hlong)), fun _ => rfl⟩
      · exact absurd h nofun

/-! ## Lists of results -/

section
variable {α β ε : Type} {f : α → Except ε β} {xs : List α} {ys : List β} {error : ε}

theorem mapM_ok_iff : xs.mapM f = .ok ys ↔ List.Forall₂ (fun x y => f x = .ok y) xs ys := by
  induction xs generalizing ys with
  | nil =>
    rw [List.mapM_nil, List.forall₂_nil_left_iff]
    exact ⟨fun h => by cases h; rfl, fun h => by rw [h]; rfl⟩
  | cons x xs ih =>
    rw [List.mapM_cons, List.forall₂_cons_left_iff]
    cases hx : f x with
    | error e => exact iff_of_false nofun fun ⟨y, _, hy, _, _⟩ => absurd hy nofun
    | ok y =>
      cases hxs : xs.mapM f with
      | error e => 
        refine iff_of_false nofun fun ⟨_, rest, _, hrest, _⟩ => ?_
        rw [← ih, hxs] at hrest
        exact absurd hrest nofun
      | ok rest =>
        constructor
        · intro h
          cases h
          exact ⟨y, rest, rfl, ih.mp hxs, rfl⟩
        · rintro ⟨y', rest', hy, hrest, rfl⟩
          cases hy
          rw [← ih, hxs] at hrest
          cases hrest
          rfl

/-- The first error ends it. -/
theorem mapM_error (h : xs.mapM f = .error error) :
    ∃ before x after, xs = before ++ x :: after ∧ (∀ good ∈ before, ∃ y, f good = .ok y) ∧
      f x = .error error := by
  induction xs with
  | nil => exact absurd h nofun
  | cons x xs ih =>
    rw [List.mapM_cons] at h
    cases hx : f x with
    | error e =>
      rw [hx] at h
      cases h
      exact ⟨[], x, xs, rfl, nofun, hx⟩
    | ok y =>
      cases hxs : xs.mapM f with
      | ok rest =>
        rw [hx, hxs] at h
        exact absurd h nofun
      | error e =>
        rw [hx, hxs] at h
        cases h
        obtain ⟨before, bad, after, rfl, hbefore, hbad⟩ := ih hxs
        exact ⟨x :: before, bad, after, rfl, List.forall_mem_cons.mpr ⟨⟨y, hx⟩, hbefore⟩, hbad⟩

end

theorem mapM_tokenByte_ok : toks.mapM tokenByte = .ok bytes ↔ List.Forall₂ TokenOf toks bytes := by
  have hrel : (fun tok byte => tokenByte tok = .ok byte) = TokenOf := by
    funext ⟨token, n⟩ byte
    exact propext tokenByte_ok
  rw [mapM_ok_iff, hrel]

/-- What is read, by the tokens that the text is cut into. -/
theorem decided_read (text : Bytes) : Decided (tokens text) (read text) := by
  unfold read
  cases hbytes : (tokens text).mapM tokenByte with
  | error e =>
    have hnone : ∀ bytes, ¬List.Forall₂ TokenOf (tokens text) bytes := fun bytes h => by
      rw [mapM_tokenByte_ok.mpr h] at hbytes
      exact absurd hbytes nofun
    refine ⟨fun bytes => iff_of_false nofun fun h => hnone bytes h.2, fun hnil => ?_, fun _ _ => ?_⟩
    · exact absurd (hnil ▸ List.Forall₂.nil) (hnone [])
    · obtain ⟨before, ⟨token, line⟩, after, htoks, hbefore, hbad⟩ := mapM_error hbytes
      obtain ⟨wording, hfault, hmessage⟩ := tokenByte_error hbad
      refine ⟨before, token, line, after, wording, e, htoks, fun good hgood => ?_, hfault, rfl, hmessage⟩
      obtain ⟨byte, hbyte⟩ := hbefore good hgood
      exact ⟨byte, tokenByte_ok.mp hbyte⟩
  | ok bytes =>
    have hgood := mapM_tokenByte_ok.mp hbytes
    refine ⟨fun bytes' => ?_, fun hnil => ?_, fun _ hnone => absurd hgood (hnone bytes)⟩
    · rw [← mapM_tokenByte_ok, hbytes]
      by_cases hne : bytes = []
      · subst hne
        exact iff_of_false nofun fun ⟨hne, heq⟩ => hne (Except.ok.inj heq).symm
      · change (if bytes = [] then Except.error Error.noBytes else Except.ok bytes) = _ ↔ _
        rw [if_neg hne]
        refine ⟨fun heq => ⟨?_, heq⟩, And.right⟩
        rwa [← Except.ok.inj heq]
    · obtain rfl : bytes = [] := List.forall₂_nil_left_iff.mp (hnil ▸ hgood)
      exact ⟨.noBytes, rfl, fun _ => rfl⟩

end

/-! ## Layouts -/

/-- A word for a byte: digits, after a mark or none, and separators anywhere. -/
def Spells (word : Bytes) (byte : UInt8) : Prop :=
  ∃ mark ∈ [] :: marks, ∃ digits, digits ≠ [] ∧ Digits digits byte.toNat ∧ bare word = mark ++ digits

/-- A line of words for bytes, with or without a comment at its end. Words of separators only may
    stand between the others. -/
def LineOf (bytes line : Bytes) : Prop :=
  ∃ code comment ws, line = code ++ comment ∧ (comment = [] ∨ OpensComment comment) ∧ Spaced code ws ∧
    List.Forall₂ Spells (ws.filter (bare · ≠ [])) bytes

/-- A text that lays out a list of bytes, on as many lines as it may be. -/
inductive TextOf : Bytes → Bytes → Prop
  | last {bytes line : Bytes} (hline : newline ∉ line) (h : LineOf bytes line) : TextOf bytes line
  | more {bytes bytes' line text : Bytes} (hline : newline ∉ line) (h : LineOf bytes line)
      (hrest : TextOf bytes' text) : TextOf (bytes ++ bytes') (line ++ newline :: text)

section
variable {b byte : UInt8} {word line code s : Bytes} {ws : List Bytes} {bytes text : Bytes} {n : Nat}

/-- No comment begins with this byte. -/
def opensNone (b : UInt8) : Bool := b != 35 && b != 59 && b != 47

theorem not_opensComment (h : opensNone b = true) : ¬OpensComment (b :: s) := by
  rw [opensComment_iff]
  rintro (⟨rest, heq⟩ | ⟨rest, heq⟩ | ⟨rest, heq⟩) <;> cases heq <;> exact absurd h nofun

theorem opensNone_digit : isHexDigit b = true → opensNone b = true :=
  forall_byte (p := fun b => isHexDigit b = true → opensNone b = true) (by decide +kernel) b

theorem opensNone_blank : isBlank b = true → opensNone b = true :=
  forall_byte (p := fun b => isBlank b = true → opensNone b = true) (by decide +kernel) b

theorem opensNone_bare (h : ∀ b ∈ bare word, opensNone b = true) : ∀ b ∈ word, opensNone b = true := by
  intro b hb
  by_cases hsep : b ∈ separators
  · have hseparators : ∀ b ∈ separators, opensNone b = true := by decide +kernel
    exact hseparators b hsep
  · exact h b (List.mem_filter.mpr ⟨hb, decide_eq_true hsep⟩)

theorem Spells.opensNone (h : Spells word byte) : ∀ b ∈ word, opensNone b = true := by
  obtain ⟨mark, hmark, digits, -, hdigits, hword⟩ := h
  refine opensNone_bare fun b hb => ?_
  rw [hword] at hb
  rcases List.mem_append.mp hb with hb | hb
  · have hmarks : ∀ mark ∈ [] :: marks, ∀ b ∈ mark, HexText.opensNone b = true := by decide +kernel
    exact hmarks mark hmark b hb
  · exact opensNone_digit (List.all_eq_true.mp (digits_iff.mp hdigits).1 b hb)

theorem Spells.clean (h : Spells word byte) : Digits (clean word) byte.toNat := by
  obtain ⟨mark, hmark, digits, hne, hdigits, hword⟩ := h
  suffices Cleaned word digits from cleaned_iff.mp this ▸ hdigits
  rcases List.mem_cons.mp hmark with rfl | hmark
  · -- A digit is not the second byte of a mark.
    rw [List.nil_append] at hword
    rw [← hword]
    refine .plain fun mark hmark token _ heq => ?_
    have hall := (digits_iff.mp hdigits).1
    rw [← hword, heq, List.all_append, Bool.and_eq_true] at hall
    have hmarks : ∀ mark ∈ marks, ¬mark.all isHexDigit = true := by decide +kernel
    exact hmarks mark hmark hall.1
  · exact .marked hmark hne hword

theorem clean_eq_nil_iff : HexText.clean word = [] ↔ bare word = [] := by
  rw [HexText.clean, ← bare_eq]
  generalize bare word = s
  unfold cutMark
  split
  · split <;> exact iff_of_false nofun nofun
  · rfl

/-- Before the comment of a line nothing looks like one. -/
theorem opensNone_code (hspaced : Spaced code ws)
    (hwords : List.Forall₂ Spells (ws.filter (bare · ≠ [])) bytes) : ∀ b ∈ code, opensNone b = true := by
  have hspelled : ∀ word ∈ ws.filter (bare · ≠ []), ∀ b ∈ word, opensNone b = true :=
    ((List.forall₂_and_left _ _).mp (hwords.imp fun word byte h => ⟨h.opensNone, h⟩)).1
  intro b hb
  rcases hspaced.mem b hb with hblank | ⟨word, hword, hb⟩
  · exact opensNone_blank hblank
  · by_cases hempty : bare word = []
    · exact opensNone_bare (by rw [hempty]; exact nofun) b hb
    · exact hspelled word (List.mem_filter.mpr ⟨hword, decide_eq_true hempty⟩) b hb

theorem LineOf.tokens (h : LineOf bytes line) :
    List.Forall₂ (fun token byte => Digits token byte.toNat) (lineTokens line) bytes := by
  obtain ⟨code, comment, ws, rfl, hcomment, hspaced, hwords⟩ := h
  have hcode : cutComment (code ++ comment) = code := by
    refine (uncommented_iff.mp ⟨⟨comment, rfl, hcomment⟩, fun i hi => ?_⟩).symm
    rw [List.drop_append_of_le_length (Nat.le_of_lt hi), List.drop_eq_getElem_cons hi]
    exact not_opensComment (opensNone_code hspaced hwords _ (List.getElem_mem hi))
  have hfilter : ((· ≠ []) ∘ HexText.clean : Bytes → Bool) = (bare · ≠ []) := by
    funext word
    exact decide_eq_decide.mpr (not_congr clean_eq_nil_iff)
  rw [lineTokens, hcode, ← hspaced.eq, List.filter_map, hfilter, List.forall₂_map_left_iff]
  exact hwords.imp fun _ _ => Spells.clean

theorem TextOf.tokens (h : TextOf bytes text) (n : Nat) : List.Forall₂ TokenOf (tokensFrom n text) bytes := by
  induction h generalizing n with
  | last hline h =>
    rw [tokensFrom_last hline, List.forall₂_map_left_iff]
    exact h.tokens
  | more hline h _ ih =>
    rw [tokensFrom_more hline]
    refine List.rel_append ?_ (ih (n + 1))
    rw [List.forall₂_map_left_iff]
    exact h.tokens

/-- Two digits in lower case are a word for their byte, and a line of their own. -/
theorem lineOf_hexByte (byte : UInt8) :
    newline ∉ utf8 (hexByte byte) ∧ LineOf [byte] (utf8 (hexByte byte)) := by
  have hall : ∀ n : Fin 256, let s := utf8 (hexByte (UInt8.ofNat n))
      newline ∉ s ∧ s ≠ [] ∧ (s.all isHexDigit = true ∧ hexValue s = (UInt8.ofNat n).toNat) ∧
        bare s = s ∧ words s = [s] := by decide +kernel
  obtain ⟨hline, hne, hdigits, hbare, hwords⟩ := forall_byte (p := fun byte => let s := utf8 (hexByte byte)
      newline ∉ s ∧ s ≠ [] ∧ (s.all isHexDigit = true ∧ hexValue s = byte.toNat) ∧
        bare s = s ∧ words s = [s]) hall byte
  have hspells : Spells (utf8 (hexByte byte)) byte :=
    ⟨[], List.mem_cons_self, _, hne, digits_iff.mpr hdigits, hbare⟩
  refine ⟨hline, _, [], [_], (List.append_nil _).symm, .inl rfl, spaced_iff.mpr hwords.symm, ?_⟩
  rw [List.filter_cons_of_pos (by simpa [hbare] using hne)]
  exact .cons hspells .nil

/-- There is a layout for every list of bytes. -/
theorem exists_layout (bytes : Bytes) : ∃ text, TextOf bytes text := by
  induction bytes with
  | nil => exact ⟨[], .last nofun ⟨[], [], [], rfl, .inl rfl, .blank nofun, .nil⟩⟩
  | cons byte bytes ih =>
    obtain ⟨text, htext⟩ := ih
    obtain ⟨hline, hbyte⟩ := lineOf_hexByte byte
    exact ⟨_, .more hline hbyte htext⟩

/-- A text is cut into tokens in one way only, and they decide what is read. A layout of bytes is
    read as these bytes. -/
theorem read_format (text : Bytes) :
    (∃ toks, (∀ toks', Tokenized 1 text toks' ↔ toks' = toks) ∧ Decided toks (readFile (some text))) ∧
      ∀ bytes, bytes ≠ [] → TextOf bytes text → readFile (some text) = .ok bytes ∧
        FileKind.read .hex (some text) = .ok bytes ∧ FileKind.read .raw (some bytes) = .ok bytes := by
  have hdecided : Decided (tokens text) (readFile (some text)) := decided_read text
  refine ⟨⟨tokens text, fun _ => tokenized_iff, hdecided⟩, fun bytes hne htext => ?_⟩
  have hread : readFile (some text) = .ok bytes := (hdecided.accepted bytes).mpr ⟨hne, htext.tokens 1⟩
  exact ⟨hread, congrArg (Except.mapError LoadError.hexText) hread, rfl⟩

/-- Digits of both cases, a mark, an underscore, commas, zeros in front and a comment. -/
theorem read_format_layout :
    let text := utf8 "43, 0xC_4 , // 99\n\t0000fF"
    TextOf [0x43, 0xC4, 0xFF] text ∧ FileKind.read .hex (some text) = .ok [0x43, 0xC4, 0xFF] := by
  intro text
  have hcommas : Spells (utf8 "43,") 0x43 :=
    ⟨[], by decide +kernel, utf8 "43", by decide +kernel, digits_iff.mpr (by decide +kernel), by decide +kernel⟩
  have hmark : Spells (utf8 "0xC_4") 0xC4 :=
    ⟨utf8 "0x", by decide +kernel, utf8 "C4", by decide +kernel, digits_iff.mpr (by decide +kernel),
      by decide +kernel⟩
  have hzeros : Spells (utf8 "0000fF") 0xFF :=
    ⟨[], by decide +kernel, utf8 "0000fF", by decide +kernel, digits_iff.mpr (by decide +kernel),
      by decide +kernel⟩
  have hfirst : LineOf [0x43, 0xC4] (utf8 "43, 0xC_4 , // 99") := by
    have hfilter : [utf8 "43,", utf8 "0xC_4", utf8 ","].filter (bare · ≠ []) = [utf8 "43,", utf8 "0xC_4"] := by
      decide +kernel
    refine ⟨utf8 "43, 0xC_4 , ", utf8 "// 99", [utf8 "43,", utf8 "0xC_4", utf8 ","], by decide +kernel,
      .inr ⟨utf8 "//", by decide +kernel, by decide +kernel⟩, spaced_iff.mpr (by decide +kernel), ?_⟩
    rw [hfilter]
    exact .cons hcommas (.cons hmark .nil)
  have hlast : LineOf [0xFF] (utf8 "\t0000fF") := by
    have hfilter : [utf8 "0000fF"].filter (bare · ≠ []) = [utf8 "0000fF"] := by decide +kernel
    refine ⟨utf8 "\t0000fF", [], [utf8 "0000fF"], by decide +kernel, .inl rfl,
      spaced_iff.mpr (by decide +kernel), ?_⟩
    rw [hfilter]
    exact .cons hzeros .nil
  have htext : TextOf [0x43, 0xC4, 0xFF] text := .more (by decide +kernel) hfirst (.last (by decide +kernel) hlast)
  exact ⟨htext, ((read_format text).2 _ (by decide) htext).2.1⟩

end

end BrainfuckBoard.HexText
