import BrainfuckBoard.Language.Compiler
import BrainfuckBoard.Language.Semantics

/- How code is laid out in words. `Laid code ws` says that the words `ws` are a
   layout of `code`: up to `maxCount` equal actions share a word, and a loop is
   its body between two jumps. `compile_laid`: the words of a source text that
   compiles are a layout of its code, and a halt word after it. -/
namespace BrainfuckBoard

/-- The command that carries out an action. -/
def Action.opcode : Action → Opcode
  | right => .right
  | left => .left
  | add => .add
  | sub => .sub
  | output => .output
  | input => .input

/-- The same action `n` times, and then the rest. -/
def Code.times (action : Action) : Nat → Code → Code
  | 0, rest => rest
  | n + 1, rest => .act action (times action n rest)

/-- The jump that skips a loop whose body takes `n` words, and the one back to it. -/
def Word.skip (n : Nat) : Word := encodeSigned .jumpZero (n + 2)
def Word.again (n : Nat) : Word := encodeSigned .jumpNonzero (-(n + 1))

inductive Laid : Code → List Word → Prop
  | done : Laid .done []
  | counted {action : Action} {n : Nat} {rest : Code} {ws : List Word} :
      0 < n → n ≤ action.opcode.maxCount → Laid rest ws →
      Laid (Code.times action n rest) (Word.encode action.opcode n :: ws)
  | single {action : Action} {rest : Code} {ws : List Word} :
      action.opcode.isCounted = false → Laid rest ws →
      Laid (.act action rest) (Word.encode action.opcode 0 :: ws)
  | loop {body rest : Code} {inner ws : List Word} :
      Laid body inner → inner.length ≤ maxLoopBody → Laid rest ws →
      Laid (.loop body rest) (Word.skip inner.length :: (inner ++ Word.again inner.length :: ws))

namespace Code

theorem andThen_done (c : Code) : c.andThen done = c := by
  induction c with
  | done => rfl
  | act action rest ih => simp [andThen, ih]
  | loop body rest _ ih => simp [andThen, ih]

theorem andThen_assoc (c d e : Code) : (c.andThen d).andThen e = c.andThen (d.andThen e) := by
  induction c with
  | done => rfl
  | act action rest ih => simp [andThen, ih]
  | loop body rest _ ih => simp [andThen, ih]

theorem times_andThen (action : Action) (rest next : Code) :
    ∀ n, (times action n rest).andThen next = times action n (rest.andThen next)
  | 0 => rfl
  | n + 1 => by simp [times, andThen, times_andThen action rest next n]

theorem times_add (action : Action) (m : Nat) (rest : Code) :
    ∀ n, times action (n + m) rest = times action n (times action m rest)
  | 0 => by simp [times]
  | n + 1 => by
    rw [show n + 1 + m = (n + m) + 1 by omega]
    simp [times, times_add action m rest n]

end Code

theorem Laid.andThen {c d : Code} {vs ws : List Word} (hc : Laid c vs) (hd : Laid d ws) :
    Laid (c.andThen d) (vs ++ ws) := by
  induction hc with
  | done => exact hd
  | counted h₀ h₁ _ ih =>
    rw [Code.times_andThen]
    exact .counted h₀ h₁ ih
  | single h _ ih => exact .single h ih
  | loop hb hlen _ _ ih =>
    rw [List.cons_append, List.append_assoc, List.cons_append]
    exact .loop hb hlen ih

/-! ## Runs of one action -/

theorem Laid.replicate {action : Action} {k : Nat} (h₀ : 0 < k) (h₁ : k ≤ action.opcode.maxCount) :
    ∀ q, Laid (Code.times action (q * k) .done) (List.replicate q (Word.encode action.opcode k))
  | 0 => by simpa [Code.times] using Laid.done
  | q + 1 => by
    rw [show (q + 1) * k = k + q * k by rw [Nat.succ_mul]; omega, Code.times_add]
    exact .counted h₀ h₁ (Laid.replicate h₀ h₁ q)

theorem maxCount_pos {op : Opcode} (h : op.isCounted = true) : 0 < op.maxCount := by
  cases op <;> simp [Opcode.isCounted, Opcode.maxCount] at h ⊢

theorem laid_runWords {action : Action} (h : action.opcode.isCounted = true) (n : Nat) :
    Laid (Code.times action n .done) (Compiler.runWords action.opcode n) := by
  have hmax := maxCount_pos h
  have hfull := Laid.replicate hmax (Nat.le_refl _) (n / action.opcode.maxCount)
  have hn : n / action.opcode.maxCount * action.opcode.maxCount + n % action.opcode.maxCount = n := by
    rw [Nat.mul_comm]
    exact Nat.div_add_mod n _
  by_cases hr : n % action.opcode.maxCount = 0
  · rw [hr, Nat.add_zero] at hn
    simpa [Compiler.runWords, hr, hn] using hfull
  · have hlast : Laid (Code.times action (n % action.opcode.maxCount) .done)
        [Word.encode action.opcode (n % action.opcode.maxCount)] :=
      .counted (by omega) (Nat.le_of_lt (Nat.mod_lt _ hmax)) .done
    have hboth := hfull.andThen hlast
    rw [Code.times_andThen, Code.andThen, ← Code.times_add, hn] at hboth
    simpa [Compiler.runWords, hr] using hboth

/-! ## Reading from both ends

The code of a text is read from its last command to its first, and its words are
emitted from the first to the last. `closeAll` is where the two meet: it puts the
codes of the stretches around a point, from the inside out, before what was read
after that point. -/

namespace Code

def closeAll : List Code → Code → List Code → Option (Code × List Code)
  | [], code, after => some (code, after)
  | before :: outer, code, next :: after => closeAll outer (before.andThen (loop code next)) after
  | _ :: _, _, [] => none

theorem parse_action (action : Action) (ops : List Opcode) :
    parse (action.opcode :: ops) = (parse ops).map fun read => (act action read.1, read.2) := by
  cases h : parse ops with
  | none => simp [parse, h]
  | some read => cases action <;> simp [parse, Action.opcode, h]

theorem parse_actions (action : Action) (ops : List Opcode) : ∀ n,
    parse (List.replicate n action.opcode ++ ops) =
      (parse ops).map fun read => (times action n read.1, read.2)
  | 0 => by simp [times]
  | n + 1 => by
    rw [List.replicate_succ, List.cons_append, parse_action, parse_actions action ops n,
      Option.map_map]
    rfl

theorem parse_open (ops : List Opcode) (outer : List Code) (code : Code) :
    ((parse (.jumpZero :: ops)).bind fun read => closeAll outer (code.andThen read.1) read.2) =
      (parse ops).bind fun read => closeAll (code :: outer) read.1 read.2 := by
  cases h : parse ops with
  | none => simp [parse, h]
  | some read =>
    obtain ⟨inner, after⟩ := read
    cases after with
    | nil => simp [parse, h, closeAll]
    | cons next after => simp [parse, h, closeAll]

theorem parse_close (ops : List Opcode) (outer : List Code) (body before : Code) :
    ((parse (.jumpNonzero :: ops)).bind fun read =>
        closeAll (before :: outer) (body.andThen read.1) read.2) =
      (parse ops).bind fun read =>
        closeAll outer ((before.andThen (loop body done)).andThen read.1) read.2 := by
  cases h : parse ops with
  | none => simp [parse, h]
  | some read => simp [parse, h, closeAll, andThen_done, andThen_assoc, andThen]

end Code

/-- A draft holds the code of the commands read so far: that of the innermost
    open loop, and those of the stretches around it. -/
structure Holds (d : Compiler.Draft) (ops : List Opcode) (code : Code)
    (outer : List (Code × List Word)) : Prop where
  laid : Laid code d.code.reverse
  around : d.around = outer.map (·.2)
  outer_laid : ∀ stretch ∈ outer, Laid stretch.1 stretch.2.reverse
  parse : ∀ rest, Code.parse (ops ++ rest) =
    (Code.parse rest).bind fun read => Code.closeAll (outer.map (·.1)) (code.andThen read.1) read.2

namespace Holds

variable {d d' : Compiler.Draft} {ops : List Opcode} {code : Code} {outer : List (Code × List Word)}

theorem start : Holds {} [] .done [] where
  laid := .done
  around := rfl
  outer_laid := by simp
  parse := fun rest => by cases h : Code.parse rest <;> simp [h, Code.closeAll, Code.andThen]

/-- Words that lay out `n` times an action are emitted for `n` of its commands. -/
theorem emit (h : Holds d ops code outer) {action : Action} {n : Nat} {ws : List Word}
    (hws : Laid (Code.times action n .done) ws) :
    Holds (d.emit ws) (ops ++ List.replicate n action.opcode)
      (code.andThen (Code.times action n .done)) outer where
  laid := by
    simpa [Compiler.Draft.emit] using h.laid.andThen hws
  around := h.around
  outer_laid := h.outer_laid
  parse := fun rest => by
    rw [List.append_assoc, h.parse, Code.parse_actions]
    cases Code.parse rest with
    | none => rfl
    | some read => simp [Code.andThen_assoc, Code.times_andThen, Code.andThen]

theorem openLoop (h : Holds d ops code outer) :
    Holds d.openLoop (ops ++ [.jumpZero]) .done ((code, d.code) :: outer) where
  laid := .done
  around := by simp [Compiler.Draft.openLoop, h.around]
  outer_laid := by
    intro stretch hs
    rcases List.mem_cons.mp hs with rfl | hs
    · exact h.laid
    · exact h.outer_laid stretch hs
  parse := fun rest => by
    rw [List.append_assoc, h.parse, List.singleton_append, Code.parse_open]
    rfl

theorem closeLoop (h : Holds d ops code outer) (hd : d.closeLoop = .ok d') :
    ∃ code' outer', Holds d' (ops ++ [.jumpNonzero]) code' outer' := by
  have haround := h.around
  match outer, h with
  | [], h =>
    simp only [List.map_nil] at haround
    simp [Compiler.Draft.closeLoop, haround] at hd
  | (before, words) :: outer, h =>
    simp only [List.map_cons] at haround
    simp only [Compiler.Draft.closeLoop, haround] at hd
    split at hd
    · cases hd
    · next hlen =>
      cases hd
      -- The words since the bracket are the body, and they go behind those before it.
      have hb := h.outer_laid (before, words) List.mem_cons_self
      have hloop : Laid (.loop code .done)
          (Word.skip d.code.length :: (d.code.reverse ++ [Word.again d.code.length])) := by
        simpa using Laid.loop h.laid (by simpa using hlen) .done
      refine ⟨before.andThen (.loop code .done), outer, ?_, rfl, ?_, ?_⟩
      · simpa [Compiler.Draft.closedLoop, Word.skip, Word.again] using hb.andThen hloop
      · exact fun s hs => h.outer_laid s (List.mem_cons_of_mem _ hs)
      · intro rest
        rw [List.append_assoc, h.parse, List.singleton_append, List.map_cons, Code.parse_close]

end Holds

/-! ## From the source text -/

namespace Source

theorem runs_cons (b : UInt8) (source : Bytes) :
    runs (b :: source) = match runs source with
      | (c, n) :: rest => if b == c && isCounted b then (b, n + 1) :: rest else (b, 1) :: (c, n) :: rest
      | [] => [(b, 1)] := rfl

/-- Only a counted command has a run of more than one. -/
theorem runs_length {source : Bytes} {run : UInt8 × Nat} (h : run ∈ runs source) :
    isCounted run.1 = true ∨ run.2 = 1 := by
  induction source generalizing run with
  | nil => simp [runs] at h
  | cons b source ih =>
    rw [runs_cons] at h
    cases hr : runs source with
    | nil => simp_all
    | cons first rest =>
      rw [hr] at h ih
      simp only at h
      split at h
      · next hb =>
        rcases List.mem_cons.mp h with rfl | h
        · simp only [Bool.and_eq_true, beq_iff_eq] at hb
          exact .inl hb.2
        · exact ih (List.mem_cons_of_mem _ h)
      · rcases List.mem_cons.mp h with rfl | h
        · exact .inr rfl
        · exact ih h

end Source

theorem commands_append (s t : Bytes) : Code.commands (s ++ t) = Code.commands s ++ Code.commands t :=
  List.filterMap_append ..

theorem commands_replicate {b : UInt8} {op : Opcode} (h : Opcode.ofByte? b = some op) (n : Nat) :
    Code.commands (List.replicate n b) = List.replicate n op := by
  simp [Code.commands, h]

theorem commands_comment {b : UInt8} (h : Opcode.ofByte? b = none) (n : Nat) :
    Code.commands (List.replicate n b) = [] := by
  simp [Code.commands, h]

theorem ofByte?_newline : Opcode.ofByte? Text.newline = none := by decide

theorem Action.exists_opcode (op : Opcode) :
    (∃ action, op = Action.opcode action) ∨ op = .jumpZero ∨ op = .jumpNonzero := by
  cases op
  case right => exact .inl ⟨.right, rfl⟩
  case left => exact .inl ⟨.left, rfl⟩
  case add => exact .inl ⟨.add, rfl⟩
  case sub => exact .inl ⟨.sub, rfl⟩
  case output => exact .inl ⟨.output, rfl⟩
  case input => exact .inl ⟨.input, rfl⟩
  case jumpZero => exact .inr (.inl rfl)
  case jumpNonzero => exact .inr (.inr rfl)

namespace Holds

variable {d d' : Compiler.Draft} {ops : List Opcode} {code : Code} {outer : List (Code × List Word)}

theorem command (h : Holds d ops code outer) {op : Opcode} {n : Nat}
    (hn : op.isCounted = true ∨ n = 1) (hd : d.command op n = .ok d') :
    ∃ code' outer', Holds d' (ops ++ List.replicate n op) code' outer' := by
  have single {action : Action} (hs : action.opcode.isCounted = false) :
      Laid (Code.times action 1 .done) [Word.encode action.opcode 0] := .single hs .done
  rcases Action.exists_opcode op with ⟨action, rfl⟩ | rfl | rfl
  · cases hc : action.opcode.isCounted
    · -- An action that is not counted has a word to itself.
      obtain rfl : n = 1 := by simpa [hc] using hn
      have hd' : d.emit [Word.encode action.opcode 0] = d' := by
        cases action <;> simp_all [Opcode.isCounted, Action.opcode, Compiler.Draft.command]
      exact ⟨_, _, hd' ▸ h.emit (single hc)⟩
    · have hd' : d.emit (Compiler.runWords action.opcode n) = d' := by
        cases action <;> simp_all [Opcode.isCounted, Action.opcode, Compiler.Draft.command]
      exact ⟨_, _, hd' ▸ h.emit (laid_runWords hc n)⟩
  · obtain rfl : n = 1 := by simpa [Opcode.isCounted] using hn
    simp only [Compiler.Draft.command, Except.ok.injEq] at hd
    exact ⟨_, _, hd ▸ h.openLoop⟩
  · obtain rfl : n = 1 := by simpa [Opcode.isCounted] using hn
    exact h.closeLoop hd

theorem feed (h : Holds d ops code outer) {run : UInt8 × Nat}
    (hn : Source.isCounted run.1 = true ∨ run.2 = 1) (hd : d.feed run = .ok d') :
    ∃ code' outer', Holds d' (ops ++ Code.commands (List.replicate run.2 run.1)) code' outer' := by
  simp only [Compiler.Draft.feed] at hd
  split at hd
  · next hline =>
    cases hd
    rw [hline, commands_comment ofByte?_newline, List.append_nil]
    exact ⟨code, outer, h.laid, h.around, h.outer_laid, h.parse⟩
  · cases hop : Opcode.ofByte? run.1 with
    | none =>
      simp only [hop, Except.ok.injEq] at hd
      rw [commands_comment hop, List.append_nil]
      exact ⟨code, outer, hd ▸ h⟩
    | some op =>
      simp only [hop] at hd
      rw [commands_replicate hop]
      exact h.command (by simpa [Source.isCounted, hop] using hn) hd

theorem foldlM : ∀ (runs : List (UInt8 × Nat)) {d : Compiler.Draft} {ops : List Opcode} {code : Code}
    {outer : List (Code × List Word)}, Holds d ops code outer →
    (∀ run ∈ runs, Source.isCounted run.1 = true ∨ run.2 = 1) →
    runs.foldlM Compiler.Draft.feed d = .ok d' →
    ∃ code' outer', Holds d'
      (ops ++ Code.commands (runs.flatMap fun run => List.replicate run.2 run.1)) code' outer'
  | [], d, ops, code, outer, h, _, hd => by
    cases hd
    exact ⟨code, outer, by simpa [Code.commands] using h⟩
  | run :: runs, d, ops, code, outer, h, hn, hd => by
    rw [List.foldlM_cons] at hd
    cases hf : d.feed run with
    | error e => rw [hf] at hd; cases hd
    | ok d₁ =>
      rw [hf] at hd
      obtain ⟨code₁, outer₁, h₁⟩ := h.feed (hn run List.mem_cons_self) hf
      have hrest := foldlM runs h₁ (fun r hr => hn r (List.mem_cons_of_mem _ hr)) hd
      rwa [List.append_assoc, ← commands_append] at hrest

end Holds

theorem compile_laid {source : Bytes} {words : List Word} (h : compile source = .ok words) :
    ∃ code ws, Code.ofSource? source = some code ∧ Laid code ws ∧ words = ws ++ [Word.halt] := by
  simp only [compile] at h
  cases hd : (Source.runs source).foldlM Compiler.Draft.feed {} with
  | error e => rw [hd] at h; cases h
  | ok d =>
    rw [hd] at h
    obtain ⟨code, outer, hh⟩ := Holds.start.foldlM _ (fun _ => Source.runs_length) hd
    have hfin : d.finish = .ok words := h
    simp only [Compiler.Draft.finish] at hfin
    split at hfin
    · next ha =>
      cases hfin
      refine ⟨code, d.code.reverse, ?_, hh.laid, rfl⟩
      -- No bracket is open at the end, so what has been read is the whole text.
      have hparse := hh.parse []
      have houter : outer = [] := by simpa [ha] using hh.around
      rw [Source.flatMap_runs, houter] at hparse
      simp only [List.nil_append, List.append_nil] at hparse
      simp [Code.ofSource?, hparse, Code.parse, Code.closeAll, Code.andThen_done]
    · cases hfin

end BrainfuckBoard
