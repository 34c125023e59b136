import BrainfuckBoard.Instruction.Semantics
import BrainfuckBoard.Proofs.Language.Layout

/- Where the code that is left to run stands among the words. `Located words p code`
   says that the words from address `p` on lay out `code`: a stretch of it at a
   time, up to the halt word. Code that is about to test a loop stands at either
   of the two jumps of the loop.
   `Located.matched`: a word and the code that stands at its address do the same.
   A counted word does at once what its code does action by action, and the jump
   back to the head of a loop is a step of the words alone. -/
namespace BrainfuckBoard

/-! ## Arguments of words -/

namespace Word

theorem signedArg_eq (w : Word) :
    w.signedArg = if w.arg.toNat < 16 then (w.arg.toNat : Int) else w.arg.toNat - 32 := by
  simp [signedArg, UInt8.lt_iff_toNat_lt]

theorem signedArg_encode (op : Opcode) {n : Nat} (h : n < 16) : (encode op n).signedArg = n := by
  rw [signedArg_eq, arg_encode, Nat.mod_eq_of_lt (by omega), if_pos h]

theorem signedArg_encodeSigned (op : Opcode) {z : Int} (h₀ : -16 ≤ z) (h₁ : z < 16) :
    (encodeSigned op z).signedArg = z := by
  rw [signedArg_eq, encodeSigned, arg_encode]
  split <;> omega

theorem arg_encode_ofNat (op : Opcode) {n : Nat} (h : n < 32) : (encode op n).arg = UInt8.ofNat n := by
  apply UInt8.toNat_inj.mp
  rw [arg_encode, UInt8.toNat_ofNat']
  omega

@[simp] theorem State.goOn_tape (s : State) (offset : Int) (tape : Tape) :
    (s.goOn offset tape).tape = tape := rfl

theorem isHalt_eq_false {w : Word} (h : w.toNat ≠ 0) : w.isHalt = false := by
  simp only [isHalt, halt, beq_eq_false_iff_ne]
  intro hw
  exact h (by rw [hw]; rfl)

theorem isHalt_encode_counted {op : Opcode} {n : Nat} (h₀ : 0 < n) (h₁ : n < 32) :
    (encode op n).isHalt = false :=
  isHalt_eq_false (by rw [toNat_encode]; omega)

theorem isHalt_encode {op : Opcode} (h : op ≠ .right) (n : Nat) : (encode op n).isHalt = false := by
  apply isHalt_eq_false
  rw [toNat_encode]
  cases op <;> simp [Opcode.code] at h ⊢

theorem opcode_skip (n : Nat) : (skip n).opcode = .jumpZero := opcode_encode _ _

theorem opcode_again (n : Nat) : (again n).opcode = .jumpNonzero := opcode_encode _ _

theorem signedArg_skip {n : Nat} (h : n ≤ maxLoopBody) : (skip n).signedArg = (n : Int) + 2 := by
  have hn : n ≤ 13 := h
  exact signedArg_encodeSigned .jumpZero (by omega) (by omega)

theorem signedArg_again {n : Nat} (h : n ≤ maxLoopBody) : (again n).signedArg = -((n : Int) + 1) := by
  have hn : n ≤ 13 := h
  exact signedArg_encodeSigned .jumpNonzero (by omega) (by omega)

end Word

theorem ringPlace_val {size : Nat} {place : Fin size} {move : Int} {p : Nat}
    (h : (place.val : Int) + move = p) (hp : p < size) : (ringPlace place move).val = p := by
  show (((place.val : Int) + move) % size).toNat = p
  rw [h, Int.emod_eq_of_lt (by omega) (by omega)]
  rfl

theorem ringPlace_ringPlace {size : Nat} (place : Fin size) (j k : Int) :
    ringPlace (ringPlace place j) k = ringPlace place (j + k) := by
  apply Fin.ext
  show (((((place.val + j) % size).toNat : Int) + k) % size).toNat = _
  have hsize : (size : Int) ≠ 0 := by have := place.isLt; omega
  rw [Int.toNat_of_nonneg (Int.emod_nonneg _ hsize), Int.emod_add_emod, Int.add_assoc]
  rfl

/-! ## Counted actions on a tape -/

namespace Action

/-- What `n` times a counted action does to a tape. -/
def change (action : Action) (n : Nat) (t : Tape) : Tape :=
  match action with
  | right => t.move n
  | left => t.move (-n)
  | add => t.write (t.current + UInt8.ofNat n)
  | sub => t.write (t.current - UInt8.ofNat n)
  | output | input => t

end Action

namespace Tape

theorem current_write (t : Tape) (value : UInt8) : (t.write value).current = value := by
  simp [current, write]

theorem write_write (t : Tape) (u v : UInt8) : (t.write u).write v = t.write v := by
  simp [write]

theorem write_current (t : Tape) : t.write t.current = t := by
  simp [write, current]

theorem move_move (t : Tape) (j k : Int) : (t.move j).move k = t.move (j + k) := by
  simp [move, ringPlace_ringPlace]

theorem move_zero (t : Tape) : t.move 0 = t := by
  have h : ringPlace t.head 0 = t.head := Fin.ext (ringPlace_val (by omega) t.head.isLt)
  simp [move, h]

end Tape

namespace Action

variable {action : Action}

theorem change_zero (h : action.opcode.isCounted = true) (t : Tape) : action.change 0 t = t := by
  cases action <;> simp [opcode, Opcode.isCounted] at h <;>
    simp [change, Tape.move_zero, Tape.write_current]

theorem change_succ (h : action.opcode.isCounted = true) (n : Nat) (t : Tape) :
    action.change n (action.change 1 t) = action.change (n + 1) t := by
  cases action <;> simp [opcode, Opcode.isCounted] at h
  case right =>
    simp only [change, Tape.move_move]
    congr 1
    omega
  case left =>
    simp only [change, Tape.move_move]
    congr 1
    omega
  case add =>
    simp only [change, Tape.current_write, Tape.write_write, UInt8.ofNat_add]
    rw [UInt8.add_assoc, UInt8.add_comm (UInt8.ofNat 1)]
  case sub =>
    simp only [change, Tape.current_write, Tape.write_write, UInt8.ofNat_add]
    congr 1
    grind

theorem step_act (h : action.opcode.isCounted = true) (rest : Code) (t : Tape) :
    Code.step (.act action rest, t) = .silent (rest, action.change 1 t) := by
  cases action <;> simp [opcode, Opcode.isCounted] at h <;> simp [Code.step, change]

theorem run_times (h : action.opcode.isCounted = true) (rest : Code) : ∀ (n : Nat) (t : Tape),
    Run Code.step (Code.times action n rest, t) [] (rest, action.change n t)
  | 0, t => by
    rw [change_zero h]
    exact .here _
  | n + 1, t => by
    have hn := run_times h rest n (action.change 1 t)
    rw [change_succ h] at hn
    exact .silent (step_act h _ t) hn

end Action

/-! ## Where code stands -/

/-- `loopEnd` stands at the jump back; the head of the loop is at `a`. -/
inductive Located (words : List Word) : Nat → Code → Prop
  | finish {p : Nat} : words[p]? = some Word.halt → p + 1 = words.length → Located words p .done
  | stretch {p : Nat} {code next : Code} {ws : List Word} :
      Laid code ws → ws <+: words.drop p → Located words (p + ws.length) next →
      Located words p (code.andThen next)
  | loopEnd {a : Nat} {body rest : Code} {inner : List Word} :
      Laid body inner → inner.length ≤ maxLoopBody →
      (Word.skip inner.length :: (inner ++ [Word.again inner.length])) <+: words.drop a →
      Located words (a + inner.length + 2) rest →
      Located words (a + inner.length + 1) (.loop body rest)

section
variable {words : List Word}

theorem head_of_prefix_drop {w : Word} {ws : List Word} {p : Nat} (h : w :: ws <+: words.drop p) :
    words[p]? = some w := by
  obtain ⟨rest, hr⟩ := h
  have h₀ : (words.drop p)[0]? = some w := by rw [← hr]; rfl
  simpa using h₀

theorem append_of_prefix_drop {vs ws : List Word} {p : Nat} (h : vs ++ ws <+: words.drop p) :
    vs <+: words.drop p ∧ ws <+: words.drop (p + vs.length) := by
  obtain ⟨rest, hr⟩ := h
  refine ⟨⟨ws ++ rest, by rw [← hr, List.append_assoc]⟩, ⟨rest, ?_⟩⟩
  rw [← List.drop_drop, ← hr, List.append_assoc, List.drop_left]

theorem tail_of_prefix_drop {w : Word} {ws : List Word} {p : Nat} (h : w :: ws <+: words.drop p) :
    ws <+: words.drop (p + 1) := by
  have happend : [w] ++ ws <+: words.drop p := h
  exact (append_of_prefix_drop happend).2

theorem Located.lt_length {p : Nat} {code : Code} (h : Located words p code) : p < words.length := by
  induction h with
  | finish _ hp => omega
  | stretch _ _ _ ih => omega
  | loopEnd _ _ _ _ ih => omega

end

/-- The store begins with the words; what it holds after them does not matter. -/
def Stored (store : Vector Word 32) (words : List Word) : Prop :=
  words.length ≤ 32 ∧ ∀ (i : Fin 32) (w : Word), words[i.val]? = some w → store[i] = w

/-- The next word goes back to the head of the loop whose test is next in the code. -/
def JumpsBack (store : Vector Word 32) (words : List Word) (s : Word.State) (code : Code) : Prop :=
  ∃ s', Word.step store s = .silent s' ∧ s'.tape = s.tape ∧ s'.pc.val < s.pc.val ∧
    Located words s'.pc code

/-- A step of the words in state `s` and one of the code: both halt, speak alike, or
    go on in silence, and what is left of the code stands at the new address. -/
inductive Agree (words : List Word) (s : Word.State) : Outcome Word.State → Outcome (Code × Tape) → Prop
  | halt : s.pc.val + 1 = words.length → Agree words s .halt .halt
  | silent {s' : Word.State} {d : Code × Tape} {code' : Code} :
      Run Code.step d [] (code', s'.tape) → Located words s'.pc code' →
      Agree words s (.silent s') (.silent d)
  | output {byte : UInt8} {s' : Word.State} {code' : Code} :
      Located words s'.pc code' → Agree words s (.output byte s') (.output byte (code', s'.tape))
  | input {next : UInt8 → Word.State} {code' : Code} :
      (∀ byte, Located words (next byte).pc code') →
      Agree words s (.input next) (.input fun byte => (code', (next byte).tape))

/-- The next word, in state `s`, and the code that stands at it do the same. -/
def Matched (store : Vector Word 32) (words : List Word) (s : Word.State) (code : Code) : Prop :=
  Agree words s (Word.step store s) (Code.step (code, s.tape))

section
variable {store : Vector Word 32} {words : List Word} {s : Word.State}

theorem step_stored (hstore : Stored store words) {w : Word} (h : words[s.pc.val]? = some w) :
    Word.step store s = Word.effect w s := by
  rw [Word.step, hstore.2 s.pc w h]

theorem effect_counted {action : Action} {n : Nat} (h₀ : 0 < n) (h₁ : n ≤ action.opcode.maxCount)
    (s : Word.State) :
    Word.effect (Word.encode action.opcode n) s = .silent (s.goOn 1 (action.change n s.tape)) := by
  cases action <;> simp only [Action.opcode, Opcode.maxCount] at h₁ ⊢
  case output => omega
  case input => omega
  all_goals
    rw [Word.effect, Word.isHalt_encode_counted h₀ (by omega), Word.opcode_encode]
  case right => simp [Action.change, Word.signedArg_encode .right (show n < 16 by omega)]
  case left => simp [Action.change, Word.signedArg_encode .left (show n < 16 by omega)]
  case add => simp [Action.change, Word.arg_encode_ofNat .add (show n < 32 by omega)]
  case sub => simp [Action.change, Word.arg_encode_ofNat .sub (show n < 32 by omega)]

theorem isCounted_of_maxCount {op : Opcode} {n : Nat} (h₀ : 0 < n) (h₁ : n ≤ op.maxCount) :
    op.isCounted = true := by
  cases h : op.isCounted
  · cases op <;> simp [Opcode.isCounted, Opcode.maxCount] at h h₁ <;> omega
  · rfl

theorem effect_skip {n : Nat} (h : n ≤ maxLoopBody) (s : Word.State) :
    Word.effect (Word.skip n) s = s.jump (s.tape.current == 0) (n + 2) := by
  have hhalt : (Word.skip n).isHalt = false := Word.isHalt_encode (by decide) _
  simp [Word.effect, hhalt, Word.opcode_skip, Word.signedArg_skip h]

theorem effect_again {n : Nat} (h : n ≤ maxLoopBody) (s : Word.State) :
    Word.effect (Word.again n) s = s.jump (s.tape.current != 0) (-(n + 1)) := by
  have hhalt : (Word.again n).isHalt = false := Word.isHalt_encode (by decide) _
  simp [Word.effect, hhalt, Word.opcode_again, Word.signedArg_again h]

/-- A place `k` words on that is still among the words. -/
theorem goOn_pc {k : Int} {p : Nat} {code : Code} (hstore : Stored store words)
    (h : (s.pc.val : Int) + k = p) (hp : Located words p code) (tape : Tape) :
    Located words (s.goOn k tape).pc code := by
  have hlt := hp.lt_length
  have hle := hstore.1
  have hpc : (s.goOn k tape).pc.val = p := ringPlace_val h (by omega)
  rwa [hpc]

/-- At the head of a loop. -/
theorem matched_head (hstore : Stored store words) {body rest : Code} {inner : List Word}
    (hbody : Laid body inner) (hlen : inner.length ≤ maxLoopBody)
    (hws : (Word.skip inner.length :: (inner ++ [Word.again inner.length])) <+: words.drop s.pc)
    (hrest : Located words (s.pc.val + inner.length + 2) rest) :
    Matched store words s (.loop body rest) := by
  have hstep : Word.step store s = s.jump (s.tape.current == 0) (inner.length + 2) := by
    rw [step_stored hstore (head_of_prefix_drop hws), effect_skip hlen]
  by_cases hz : s.tape.current = 0
  · have hout : Located words (s.goOn (inner.length + 2) s.tape).pc rest :=
      goOn_pc hstore (by omega) hrest _
    simpa [Matched, hstep, Word.State.jump, Code.step, hz] using Agree.silent (.here _) hout
  · have hinside : Located words (s.pc.val + 1) (body.andThen (.loop body rest)) := by
      refine .stretch hbody (append_of_prefix_drop (tail_of_prefix_drop hws)).1 ?_
      rw [show s.pc.val + 1 + inner.length = s.pc.val + inner.length + 1 by omega]
      exact .loopEnd hbody hlen hws hrest
    have hin : Located words (s.goOn 1 s.tape).pc (body.andThen (.loop body rest)) :=
      goOn_pc hstore (by omega) hinside _
    simpa [Matched, hstep, Word.State.jump, Code.step, hz] using Agree.silent (.here _) hin

/-- At the end of a loop, whose head is at `a`. -/
theorem matched_loopEnd (hstore : Stored store words) {a : Nat} {body rest : Code} {inner : List Word}
    (hbody : Laid body inner) (hlen : inner.length ≤ maxLoopBody)
    (hws : (Word.skip inner.length :: (inner ++ [Word.again inner.length])) <+: words.drop a)
    (hrest : Located words (a + inner.length + 2) rest) (hpc : s.pc.val = a + inner.length + 1) :
    Matched store words s (.loop body rest) ∨ JumpsBack store words s (.loop body rest) := by
  have hword : words[s.pc.val]? = some (Word.again inner.length) := by
    rw [hpc, show a + inner.length + 1 = a + 1 + inner.length by omega]
    exact head_of_prefix_drop (append_of_prefix_drop (tail_of_prefix_drop hws)).2
  have hstep : Word.step store s = s.jump (s.tape.current != 0) (-(inner.length + 1)) := by
    rw [step_stored hstore hword, effect_again hlen]
  by_cases hz : s.tape.current = 0
  · have hout : Located words (s.goOn 1 s.tape).pc rest := goOn_pc hstore (by omega) hrest _
    left
    simpa [Matched, hstep, Word.State.jump, Code.step, hz] using Agree.silent (.here _) hout
  · have hhead : Located words a (.loop body rest) := by
      have h : Laid (.loop body .done)
          (Word.skip inner.length :: (inner ++ [Word.again inner.length])) := .loop hbody hlen .done
      exact .stretch h hws (by simpa [Nat.add_assoc] using hrest)
    -- The code is at the loop in both places, so the jump is not a step of it.
    have ha : (s.goOn (-(inner.length + 1)) s.tape).pc.val = a :=
      ringPlace_val (by omega) (by have := s.pc.isLt; omega)
    refine .inr ⟨s.goOn (-(inner.length + 1)) s.tape, ?_, rfl, by omega, by rwa [ha]⟩
    simp [hstep, Word.State.jump, hz]

theorem matched_counted (hstore : Stored store words) {action : Action} {n : Nat} {code : Code}
    (h₀ : 0 < n) (h₁ : n ≤ action.opcode.maxCount)
    (hw : words[s.pc.val]? = some (Word.encode action.opcode n))
    (hcode : Located words (s.pc.val + 1) code) :
    Matched store words s (Code.times action n code) := by
  have hc := isCounted_of_maxCount h₀ h₁
  obtain ⟨m, rfl⟩ : ∃ m, n = m + 1 := ⟨n - 1, by omega⟩
  have hrun := Action.run_times hc code m (action.change 1 s.tape)
  rw [Action.change_succ hc] at hrun
  have hout : Located words (s.goOn 1 (action.change (m + 1) s.tape)).pc code :=
    goOn_pc hstore (by omega) hcode _
  rw [Matched, step_stored hstore hw, effect_counted h₀ h₁, Code.times, Action.step_act hc]
  exact .silent hrun hout

theorem matched_single (hstore : Stored store words) {action : Action} {code : Code}
    (h : action.opcode.isCounted = false)
    (hw : words[s.pc.val]? = some (Word.encode action.opcode 0))
    (hcode : Located words (s.pc.val + 1) code) : Matched store words s (.act action code) := by
  have hstep := step_stored hstore hw
  cases action <;> simp [Action.opcode, Opcode.isCounted] at h
  case output =>
    have hhalt : (Word.encode .output 0).isHalt = false := Word.isHalt_encode (by decide) 0
    have hout : Located words (s.goOn 1 s.tape).pc code := goOn_pc hstore (by omega) hcode _
    simpa [Matched, hstep, Word.effect, Action.opcode, hhalt, Word.opcode_encode, Code.step]
      using Agree.output hout
  case input =>
    have hhalt : (Word.encode .input 0).isHalt = false := Word.isHalt_encode (by decide) 0
    have hout (byte : UInt8) : Located words (s.goOn 1 (s.tape.write byte)).pc code :=
      goOn_pc hstore (by omega) hcode _
    simpa [Matched, hstep, Word.effect, Action.opcode, hhalt, Word.opcode_encode, Code.step]
      using Agree.input hout

theorem Located.matched (hstore : Stored store words) {p : Nat} {code : Code}
    (h : Located words p code) : ∀ {s : Word.State}, s.pc.val = p →
    Matched store words s code ∨ JumpsBack store words s code := by
  induction h with
  | finish hw hp =>
    rintro s rfl
    left
    rw [Matched, step_stored hstore hw]
    exact .halt hp
  | @stretch p code next ws hlaid hws hnext ih =>
    rintro s rfl
    -- The first word of the stretch is matched; the rest of it is still to come.
    cases hlaid with
    | done => exact ih rfl
    | @counted action n rest ws h₀ h₁ hrest =>
      rw [Code.times_andThen]
      refine .inl (matched_counted hstore h₀ h₁ (head_of_prefix_drop hws)
        (.stretch hrest (tail_of_prefix_drop hws) ?_))
      rwa [List.length_cons, Nat.add_comm ws.length, ← Nat.add_assoc] at hnext
    | @single action rest ws hs hrest =>
      refine .inl (matched_single hstore hs (head_of_prefix_drop hws)
        (.stretch hrest (tail_of_prefix_drop hws) ?_))
      rwa [List.length_cons, Nat.add_comm ws.length, ← Nat.add_assoc] at hnext
    | @loop body rest inner ws hbody hlen hrest =>
      rw [← List.singleton_append (l := ws), ← List.append_assoc, ← List.cons_append] at hws
      obtain ⟨hloop, hws⟩ := append_of_prefix_drop hws
      have hlength : (Word.skip inner.length :: (inner ++ [Word.again inner.length])).length =
          inner.length + 2 := by simp
      refine .inl (matched_head hstore hbody hlen hloop (.stretch hrest ?_ ?_))
      · rwa [hlength, ← Nat.add_assoc] at hws
      · simp only [List.length_cons, List.length_append] at hnext
        rwa [show s.pc.val + (inner.length + (ws.length + 1) + 1) =
          s.pc.val + inner.length + 2 + ws.length by omega] at hnext
  | loopEnd hbody hlen hws hrest _ =>
    exact fun hpc => matched_loopEnd hstore hbody hlen hws hrest hpc

/-- The words that a layout and a halt word make, from the first of them on. -/
theorem located_start {code : Code} {ws : List Word} (h : Laid code ws) :
    Located (ws ++ [Word.halt]) 0 code := by
  have hfin : Located (ws ++ [Word.halt]) (0 + ws.length) .done := .finish (by simp) (by simp)
  have hstart := Located.stretch h (by simp) hfin
  rwa [Code.andThen_done] at hstart

end

end BrainfuckBoard
