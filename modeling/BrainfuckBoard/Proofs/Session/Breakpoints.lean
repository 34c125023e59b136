import Mathlib.Data.List.TakeWhile
import BrainfuckBoard.Proofs.Session.Conduct

/- The lines that set and clear breakpoints. `b` takes its address round the program store, so a
   breakpoint is always at one of the 32 addresses (`Entered.inStore`). `bc` takes the last eight
   bits of its address, and these name an address of the store only if they are less than 32. Then
   a `bc` undoes the `b` with the same text, and no run stops at that address any more. Otherwise
   it clears nothing, and the breakpoint stays (`retracts_of_address`, `break_left`). -/
namespace BrainfuckBoard

open Text

namespace Session

/-- The breakpoint that `b` sets for an address. -/
def breakOf (addr : UInt64) : UInt8 := (addr % 32).toUInt8

theorem breakOf_lt (v : UInt64) : breakOf v < 32 := by
  rw [UInt8.lt_iff_toNat_lt, breakOf, UInt64.toNat_toUInt8, UInt64.toNat_mod]
  exact Nat.lt_of_le_of_lt (Nat.mod_le _ _) (Nat.mod_lt _ (by decide))

/-- Eight bits name the same address if they are one of the store. -/
theorem breakOf_eq_iff {v : UInt64} : breakOf v = v.toUInt8 ↔ v.toNat % 256 < 32 := by
  rw [← UInt8.toNat_inj, breakOf, UInt64.toNat_toUInt8, UInt64.toNat_toUInt8, UInt64.toNat_mod,
    show (32 : UInt64).toNat = 32 from rfl]
  omega

section
variable {a addr : UInt8} {breaks : List UInt8} {n : Nat} {b b' : Board}

/-! ## Sets of breakpoints -/

theorem mem_insertBreak : a ∈ insertBreak addr breaks ↔ a = addr ∨ a ∈ breaks := by
  induction breaks with
  | nil => simp [insertBreak]
  | cons head rest ih =>
    unfold insertBreak
    split
    · exact List.mem_cons
    · split
      · next heq => simp [heq]
      · rw [List.mem_cons, ih, List.mem_cons, or_left_comm]

theorem filter_insertBreak : (insertBreak addr breaks).filter (· ≠ addr) = breaks.filter (· ≠ addr) := by
  induction breaks with
  | nil => simp [insertBreak]
  | cons head rest ih =>
    unfold insertBreak
    split
    · rw [List.filter_cons_of_neg (by simp)]
    · split
      · rfl
      · rw [List.filter_cons, List.filter_cons, ih]

/-- A run that stops for a breakpoint is at one. -/
theorem runInstructions_breakpoint (h : runInstructions breaks n b = (.breakpoint, b')) :
    b'.cpu.pc ∈ breaks := by
  induction n generalizing b with
  | zero => cases h
  | succ n ih =>
    unfold runInstructions at h
    split at h
    · cases h
    · split at h
      · cases h
      · split at h
        · next hpc =>
          cases h
          exact List.contains_iff_mem.mp hpc
        · exact ih h

theorem runOn_breakpoint (h : runOn breaks n b = (.breakpoint, b')) : atBreak breaks b' = true := by
  induction n generalizing b with
  | zero =>
    unfold runOn at h
    split at h <;> cases h
  | succ n ih =>
    unfold runOn at h
    split at h
    · cases h
    · split at h
      · next hbreak =>
        cases h
        exact hbreak
      · exact ih h

theorem go_breakpoint (h : go breaks b = (.breakpoint, b')) : b'.cpu.pc ∈ breaks := by
  unfold go at h
  split at h
  · exact absurd h nofun
  · have hbreak := runOn_breakpoint h
    simp only [atBreak, Bool.and_eq_true] at hbreak
    exact List.contains_iff_mem.mp hbreak.2

end

/-! ## Lines -/

/-- The session after a line that needs no file. -/
def entered (s : Session) (line : Bytes) : Session := (s.respond (.read line) none).1

/-- The sessions that lines of text lead to. -/
inductive Entered : Session → Prop
  | start {options : Options} {content : Option Bytes} {shown : Console} {s : Session}
      (h : Session.start options content = (shown, some s)) : Entered s
  | line {s : Session} (h : Entered s) (line : Bytes) (content : Option Bytes) :
      Entered (s.respond (.read line) content).1

end Session

namespace Command

section
variable {rest word : Bytes} {addr : UInt8}

/-! ## The addresses that are set -/

theorem lt_of_readBreak (h : readBreak rest = .addBreak addr) : addr < 32 := by
  unfold readBreak at h
  split at h
  · next v _ =>
    cases h
    exact Session.breakOf_lt v
  · exact absurd h nofun

theorem readClear_ne : readClear rest ≠ .addBreak addr := by
  dsimp only [readClear]
  split
  · nofun
  · split <;> nofun

theorem readDisassemble_ne : readDisassemble rest ≠ .addBreak addr := by
  dsimp only [readDisassemble]
  split
  · nofun
  · split <;> nofun

theorem readSend_ne : readSend rest ≠ .addBreak addr := by
  unfold readSend
  split <;> nofun

theorem readSendHex_ne : readSendHex rest ≠ .addBreak addr := by
  unfold readSendHex
  split <;> nofun

theorem readUpload_ne : readUpload rest ≠ .addBreak addr := by
  dsimp only [readUpload]
  split
  · nofun
  · split <;> nofun

theorem readLoad_ne {kind : FileKind} : readLoad kind rest ≠ .addBreak addr := by
  unfold readLoad
  split <;> nofun

/-- Of all the verbs only one sets a breakpoint. -/
theorem lt_of_mem_verbs : ∀ verb ∈ verbs, ∀ rest addr, verb.2 rest = .addBreak addr → addr < 32 := by
  simp only [verbs, List.forall_mem_cons, List.not_mem_nil, false_implies, implies_true, and_true, true_and,
    reduceCtorEq, readClear_ne, readDisassemble_ne, readSend_ne, readSendHex_ne, readUpload_ne, readLoad_ne]
  exact fun rest addr => lt_of_readBreak

theorem lt_of_read {line : Bytes} (h : read line = .addBreak addr) : addr < 32 := by
  unfold read at h
  split at h
  · exact absurd h nofun
  · split at h
    · next hfind => exact lt_of_mem_verbs _ (List.mem_of_find?_eq_some hfind) _ _ h
    · exact absurd h nofun

/-- A word alone after a blank. -/
theorem cutWord_word (hword : ∀ byte ∈ word, isBlank byte = false) : cutWord (space :: word) = (word, []) := by
  have hdrop : (space :: word).dropWhile isBlank = word := by
    rw [List.dropWhile_cons_of_pos rfl]
    cases word with
    | nil => rfl
    | cons byte rest => exact List.dropWhile_cons_of_neg (by simp [hword])
  have hstop : ∀ byte ∈ word, (!isBlank byte) = true := fun byte hbyte => by rw [hword byte hbyte]; rfl
  dsimp only [cutWord]
  rw [hdrop, List.takeWhile_eq_self_iff.mpr hstop, List.dropWhile_eq_nil_iff.mpr hstop]

theorem ne_nil_of_address {v : UInt64} (h : address? word = some v) : word ≠ [] := by
  rintro rfl
  exact absurd h nofun

theorem read_break {v : UInt64} (hword : ∀ byte ∈ word, isBlank byte = false) (h : address? word = some v) :
    read (utf8 "b " ++ word) = .addBreak (Session.breakOf v) := by
  change readBreak (space :: word) = _
  unfold readBreak
  rw [cutWord_word hword, h]
  rfl

theorem read_clear {v : UInt64} (hword : ∀ byte ∈ word, isBlank byte = false) (h : address? word = some v) :
    read (utf8 "bc " ++ word) = .clearBreak v.toUInt8 := by
  change readClear (space :: word) = _
  dsimp only [readClear]
  rw [cutWord_word hword, if_neg (ne_nil_of_address h), h]

end

end Command

namespace Session

section
variable {s : Session} {v : UInt64} {word : Bytes}

theorem breaks_of_start {options : Options} {content : Option Bytes} {shown : Console}
    (h : Session.start options content = (shown, some s)) : s.breaks = [] := by
  unfold start at h
  split at h
  · cases h
    rfl
  · dsimp only at h
    split at h
    · cases h
      rfl
    · exact absurd h nofun

theorem respond_inStore {command : Command} {content : Option Bytes} (h : ∀ addr ∈ s.breaks, addr < 32)
    (hcommand : ∀ addr, command = .addBreak addr → addr < 32) :
    ∀ addr ∈ (s.respond command content).1.breaks, addr < 32 := by
  cases command with
  | addBreak new =>
    intro addr hmem
    rcases mem_insertBreak.mp hmem with rfl | hmem
    · exact hcommand addr rfl
    · exact h addr hmem
  | clearBreak old => exact fun addr hmem => h addr (List.mem_filter.mp hmem).1
  | clearBreaks => exact nofun
  | stepInstruction =>
    simp only [respond, Session.stepInstruction]
    split
    · exact h
    · split <;> exact h
  | load kind path =>
    simp only [respond, load]
    split <;> exact h
  | _ => exact h

/-- A session has breakpoints in the program store only. -/
theorem Entered.inStore (h : s.Entered) : ∀ addr ∈ s.breaks, addr < 32 := by
  induction h with
  | start h =>
    rw [breaks_of_start h]
    exact nofun
  | line _ line content ih => exact respond_inStore ih fun _ => Command.lt_of_read

/-! ## Setting and clearing -/

/-- The session `s'` after a breakpoint at `v` was set and cleared with the same text. -/
structure Retracts (v : UInt64) (s s' : Session) : Prop where
  board : s'.board = s.board
  breaks : ∀ addr, addr ∈ s'.breaks ↔ (addr = breakOf v ∨ addr ∈ s.breaks) ∧ addr ≠ v.toUInt8
  undone : v.toNat % 256 < 32 → s' = { s with breaks := s.breaks.filter (· ≠ breakOf v) }
  passed : v.toNat % 256 < 32 → ∀ b b', go s'.breaks b = (.breakpoint, b') ∨
    (∃ n, runInstructions s'.breaks n b = (.breakpoint, b')) → b'.cpu.pc ≠ breakOf v
  left : 32 ≤ v.toNat % 256 → breakOf v ∈ s'.breaks
  untouched : 32 ≤ v.toNat % 256 → s.Entered → s' = { s with breaks := insertBreak (breakOf v) s.breaks }

/-- Whatever breakpoints there are, and whatever text an address is read from. -/
theorem retracts_of_address (s : Session) (hword : ∀ byte ∈ word, isBlank byte = false)
    (h : address? word = some v) :
    Retracts v s ((s.entered (utf8 "b " ++ word)).entered (utf8 "bc " ++ word)) := by
  have hs : (s.entered (utf8 "b " ++ word)).entered (utf8 "bc " ++ word) =
      { s with breaks := (insertBreak (breakOf v) s.breaks).filter (· ≠ v.toUInt8) } := by
    unfold entered
    rw [Command.read_break hword h, Command.read_clear hword h]
    rfl
  rw [hs]
  have hbreaks : ∀ addr, addr ∈ (insertBreak (breakOf v) s.breaks).filter (· ≠ v.toUInt8) ↔
      (addr = breakOf v ∨ addr ∈ s.breaks) ∧ addr ≠ v.toUInt8 := by
    intro addr
    rw [List.mem_filter, mem_insertBreak, decide_eq_true_iff]
  refine ⟨rfl, hbreaks, fun hsmall => ?_, fun hsmall b b' hstop hpc => ?_, fun hlarge => ?_, fun hlarge hlines => ?_⟩
  · rw [← breakOf_eq_iff.mpr hsmall, filter_insertBreak]
  · have hmem : b'.cpu.pc ∈ (insertBreak (breakOf v) s.breaks).filter (· ≠ v.toUInt8) := by
      rcases hstop with hgo | ⟨n, hrun⟩
      · exact go_breakpoint hgo
      · exact runInstructions_breakpoint hrun
    exact ((hbreaks _).mp hmem).2 (hpc.trans (breakOf_eq_iff.mpr hsmall))
  · exact (hbreaks _).mpr ⟨.inl rfl, fun heq => absurd (breakOf_eq_iff.mp heq) (Nat.not_lt_of_le hlarge)⟩
  · have hkept : (insertBreak (breakOf v) s.breaks).filter (· ≠ v.toUInt8) = insertBreak (breakOf v) s.breaks := by
      refine List.filter_eq_self.mpr fun addr hmem => decide_eq_true ?_
      have hlt : addr < 32 := by
        rcases mem_insertBreak.mp hmem with rfl | hmem
        · exact breakOf_lt v
        · exact hlines.inStore addr hmem
      rintro rfl
      rw [UInt8.lt_iff_toNat_lt, UInt64.toNat_toUInt8] at hlt
      exact absurd hlt (Nat.not_lt_of_le hlarge)
    rw [hkept]

/-- A minus, a mark, digits of two cases and some junk: 2^64 - 251 is 5 of the store, and set already. -/
theorem retracts_of_address_negative :
    let s : Session := { board := .ofConfig {}, breaks := [3, 5] }
    let s' := (s.entered (utf8 "b -0xFbzz")).entered (utf8 "bc -0xFbzz")
    ((∀ byte ∈ utf8 "-0xFbzz", isBlank byte = false) ∧ address? (utf8 "-0xFbzz") = some 18446744073709551365) ∧
      Retracts 18446744073709551365 s s' ∧ s'.breaks = [3] := by
  intro s s'
  have hword : ∀ byte ∈ utf8 "-0xFbzz", isBlank byte = false := by decide +kernel
  have haddr : address? (utf8 "-0xFbzz") = some 18446744073709551365 := by decide +kernel
  have hs : Retracts 18446744073709551365 s s' := retracts_of_address s hword haddr
  exact ⟨⟨hword, haddr⟩, hs, by rw [hs.undone (by decide)]; decide⟩

/-- The address 32 is 0 to `b` and 32 to `bc`: the breakpoint is still there, and listed. -/
theorem break_left :
    let s : Session := { board := .ofConfig {} }
    let s' := (s.entered (utf8 "b 20")).entered (utf8 "bc 20")
    (s.Entered ∧ address? (utf8 "20") = some 32) ∧ s'.breaks = [0] ∧ s.breaks.filter (· ≠ 0) = [] ∧
      (s'.respond (.read (utf8 "bl")) none).2.out = utf8 " - 00\n" := by
  intro s s'
  exact ⟨⟨.start (show Session.start {} none = (_, some s) from rfl), by decide +kernel⟩, by decide +kernel,
    by decide +kernel, by decide +kernel⟩

end

end Session

end BrainfuckBoard
