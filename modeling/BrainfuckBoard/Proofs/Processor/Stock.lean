import BrainfuckBoard.Image.Stock
import BrainfuckBoard.Instruction.Semantics
import BrainfuckBoard.Proofs.Language.Exchanges
import BrainfuckBoard.Proofs.Language.Located

/- What the stock program does, instruction by instruction. `Task` is what it owes to the
   outside: it takes a byte, it sends one back less 32, or it has taken a zero and sends a
   line feed. `At task s` says that the state `s` has that task before it, and each kind of
   task has one lemma about the instruction that comes next. -/
namespace BrainfuckBoard

namespace Image

section
variable {s u : Word.State} {t : Tape} {byte : UInt8} {rest : Bytes} {lead : Nat}

/-- The instruction at an address. -/
theorem step_stock {p : Fin 32} {w : Word} (hw : stockWords.getD p 0 = w) (t : Tape) :
    Word.step stock ⟨p, t⟩ = Word.effect w ⟨p, t⟩ := by
  have hword : stock[p] = w := by
    rw [← hw]
    simp [stock, Ram.image]
  rw [Word.step, hword]

/-- What the program does next towards the outside: it takes a byte, it sends a byte after
    `lead` more instructions, or it sends the rest and halts. -/
inductive Task
  | ask
  | reply (lead : Nat) (byte : UInt8)
  | finish (rest : Bytes)

/-- The task when a byte has been taken. -/
def Task.taken (byte : UInt8) : Task := if byte = 0 then .finish [10] else .reply 4 (byte - 32)

/-- The states with a given task. The byte that has been taken is in the current cell, and
    both jumps look at it. -/
inductive At : Task → Word.State → Prop
  | first (t : Tape) : At .ask ⟨0, t⟩
  | again (t : Tape) : At .ask ⟨6, t⟩
  | taken (p : Fin 32) (hp : p = 1 ∨ p = 7) (t : Tape) (h : t.current ≠ 0) :
      At (.reply 4 (t.current - 32)) ⟨p, t⟩
  | whole (t : Tape) : At (.reply 3 (t.current - 32)) ⟨2, t⟩
  | lessened (t : Tape) : At (.reply 2 (t.current - 21)) ⟨3, t⟩
  | lessenedTwice (t : Tape) : At (.reply 1 (t.current - 10)) ⟨4, t⟩
  | capital (t : Tape) : At (.reply 0 t.current) ⟨5, t⟩
  | ended (p : Fin 32) (hp : p = 1 ∨ p = 7) (t : Tape) (h : t.current = 0) : At (.finish [10]) ⟨p, t⟩
  | zero (t : Tape) (h : t.current = 0) : At (.finish [10]) ⟨8, t⟩
  | lineFeed (t : Tape) (h : t.current = 10) : At (.finish [10]) ⟨9, t⟩
  | done (t : Tape) : At (.finish []) ⟨10, t⟩

/-- Both jumps lead into the loop or out of it. -/
theorem step_jump {p : Fin 32} (hp : p = 1 ∨ p = 7) (t : Tape) :
    Word.step stock ⟨p, t⟩ = .silent ⟨if t.current = 0 then 8 else 2, t⟩ := by
  by_cases h : t.current = 0
  · have hzero : (t.current == 0) = true ∧ (t.current != 0) = false := by simp [h]
    rw [if_pos h]
    rcases hp with rfl | rfl <;> rw [step_stock rfl]
    · change Word.State.jump _ (t.current == 0) 7 = _
      rw [hzero.1]
      rfl
    · change Word.State.jump _ (t.current != 0) (-5) = _
      rw [hzero.2]
      rfl
  · have hzero : (t.current == 0) = false ∧ (t.current != 0) = true := by simp [h]
    rw [if_neg h]
    rcases hp with rfl | rfl <;> rw [step_stock rfl]
    · change Word.State.jump _ (t.current == 0) 7 = _
      rw [hzero.1]
      rfl
    · change Word.State.jump _ (t.current != 0) (-5) = _
      rw [hzero.2]
      rfl

theorem at_taken {p : Fin 32} (hp : p = 1 ∨ p = 7) (t : Tape) (byte : UInt8) :
    At (.taken byte) ⟨p, t.write byte⟩ := by
  have hcurrent := t.current_write byte
  unfold Task.taken
  split
  · next hzero => exact .ended p hp _ (hcurrent.trans hzero)
  · next hne =>
    have htaken := At.taken p hp (t.write byte) (by rwa [hcurrent])
    rwa [hcurrent] at htaken

theorem At.ask (h : At .ask s) :
    ∃ next, Word.step stock s = .input next ∧ ∀ byte, At (.taken byte) (next byte) := by
  cases h with
  | first t => exact ⟨_, (step_stock rfl t).trans rfl, at_taken (.inl rfl) t⟩
  | again t => exact ⟨_, (step_stock rfl t).trans rfl, at_taken (.inr rfl) t⟩

theorem At.reply_succ (h : At (.reply (lead + 1) byte) s) :
    ∃ u, Word.step stock s = .silent u ∧ At (.reply lead byte) u := by
  cases h with
  | taken p hp t h =>
    refine ⟨⟨2, t⟩, ?_, .whole t⟩
    rw [step_jump hp, if_neg h]
  | whole t =>
    have hless := At.lessened (t.write (t.current - 11))
    rw [t.current_write, show t.current - 11 - 21 = t.current - 32 by grind] at hless
    exact ⟨_, (step_stock rfl t).trans rfl, hless⟩
  | lessened t =>
    have hless := At.lessenedTwice (t.write (t.current - 11))
    rw [t.current_write, show t.current - 11 - 10 = t.current - 21 by grind] at hless
    exact ⟨_, (step_stock rfl t).trans rfl, hless⟩
  | lessenedTwice t =>
    have hless := At.capital (t.write (t.current - 10))
    rw [t.current_write] at hless
    exact ⟨_, (step_stock rfl t).trans rfl, hless⟩

theorem At.reply_zero (h : At (.reply 0 byte) s) :
    ∃ u, Word.step stock s = .output byte u ∧ At .ask u := by
  cases h with
  | capital t => exact ⟨_, (step_stock rfl t).trans rfl, .again t⟩

theorem At.reply (h : At (.reply lead byte) s) :
    ∃ u, Word.step stock s = .silent u ∨ Word.step stock s = .output byte u := by
  cases lead with
  | zero =>
    obtain ⟨u, hs, -⟩ := h.reply_zero
    exact ⟨u, .inr hs⟩
  | succ lead =>
    obtain ⟨u, hs, -⟩ := h.reply_succ
    exact ⟨u, .inl hs⟩

/-! ## The end of a run -/

theorem step_zero (t : Tape) : Word.step stock ⟨8, t⟩ = .silent ⟨9, t.write (t.current + 10)⟩ :=
  (step_stock rfl t).trans rfl

theorem current_zero (h : t.current = 0) : (t.write (t.current + 10)).current = 10 := by
  rw [t.current_write, h]
  rfl

theorem step_lineFeed (h : t.current = 10) : Word.step stock ⟨9, t⟩ = .output 10 ⟨10, t⟩ := by
  rw [← h]
  exact (step_stock rfl t).trans rfl

theorem step_done (t : Tape) : Word.step stock ⟨10, t⟩ = .halt := (step_stock rfl t).trans rfl

theorem At.finish (h : At (.finish rest) s) :
    (∃ u, Word.step stock s = .silent u ∧ At (.finish rest) u) ∨
    (∃ byte more u, rest = byte :: more ∧ Word.step stock s = .output byte u ∧ At (.finish more) u) ∨
    (rest = [] ∧ Word.step stock s = .halt) := by
  cases h with
  | ended p hp t h =>
    refine .inl ⟨⟨8, t⟩, ?_, .zero t h⟩
    rw [step_jump hp, if_pos h]
  | zero t h => exact .inl ⟨_, step_zero t, .lineFeed _ (current_zero h)⟩
  | lineFeed t h => exact .inr (.inl ⟨10, [], _, rfl, step_lineFeed h, .done t⟩)
  | done t => exact .inr (.inr ⟨rfl, step_done t⟩)

/-- Only at the end of its tasks does the program halt. -/
theorem At.of_halt {task : Task} (h : At task s) (hs : Word.step stock s = .halt) : task = .finish [] := by
  cases task with
  | ask =>
    obtain ⟨next, hnext, -⟩ := h.ask
    rw [hs] at hnext
    cases hnext
  | reply lead byte =>
    obtain ⟨u, hu | hu⟩ := h.reply <;> rw [hs] at hu <;> cases hu
  | finish rest =>
    rcases h.finish with ⟨u, hu, -⟩ | ⟨byte, more, u, -, hu, -⟩ | ⟨rfl, -⟩
    · rw [hs] at hu
      cases hu
    · rw [hs] at hu
      cases hu
    · rfl

/-- The program sends what is left to be sent, and halts. -/
theorem At.ends (h : At (.finish rest) s) : ∃ seen u, Run (Word.step stock) s seen u ∧
    Word.step stock u = .halt ∧ sentBytes seen = rest ∧ receivedBytes seen = [] := by
  have hlineFeed (t : Tape) (h : t.current = 10) :
      Run (Word.step stock) ⟨9, t⟩ [.sent 10] ⟨10, t⟩ := .output (step_lineFeed h) (.here _)
  have hzero (t : Tape) (h : t.current = 0) :
      Run (Word.step stock) ⟨8, t⟩ [.sent 10] ⟨10, t.write (t.current + 10)⟩ :=
    .silent (step_zero t) (hlineFeed _ (current_zero h))
  cases h with
  | ended p hp t h =>
    have hjump : Word.step stock ⟨p, t⟩ = .silent ⟨8, t⟩ := by rw [step_jump hp, if_pos h]
    exact ⟨_, _, .silent hjump (hzero t h), step_done _, rfl, rfl⟩
  | zero t h => exact ⟨_, _, hzero t h, step_done _, rfl, rfl⟩
  | lineFeed t h => exact ⟨_, _, hlineFeed t h, step_done _, rfl, rfl⟩
  | done t => exact ⟨_, _, .here _, step_done t, rfl, rfl⟩

/-! ## From task to task -/

/-- What an instruction exchanges, and the task after it. -/
inductive Next : Task → List Exchange → Task → Prop
  | take (byte : UInt8) : Next .ask [.received byte] (.taken byte)
  | work (lead : Nat) (byte : UInt8) : Next (.reply (lead + 1) byte) [] (.reply lead byte)
  | reply (byte : UInt8) : Next (.reply 0 byte) [.sent byte] .ask
  | prepare (rest : Bytes) : Next (.finish rest) [] (.finish rest)
  | close (byte : UInt8) (rest : Bytes) : Next (.finish (byte :: rest)) [.sent byte] (.finish rest)

theorem At.next {task : Task} {seen : List Exchange} (h : At task s)
    (hone : OneStep (Word.step stock) s seen u) : ∃ task', Next task seen task' ∧ At task' u := by
  cases task with
  | ask =>
    obtain ⟨next, hnext, hat⟩ := h.ask
    obtain ⟨byte, rfl, rfl⟩ := hone.of_input hnext
    exact ⟨_, .take byte, hat byte⟩
  | reply lead byte =>
    cases lead with
    | zero =>
      obtain ⟨v, hv, hat⟩ := h.reply_zero
      obtain ⟨rfl, rfl⟩ := hone.of_output hv
      exact ⟨_, .reply byte, hat⟩
    | succ lead =>
      obtain ⟨v, hv, hat⟩ := h.reply_succ
      obtain ⟨rfl, rfl⟩ := hone.of_silent hv
      exact ⟨_, .work lead byte, hat⟩
  | finish rest =>
    rcases h.finish with ⟨v, hv, hat⟩ | ⟨byte, more, v, rfl, hv, hat⟩ | ⟨-, hv⟩
    · obtain ⟨rfl, rfl⟩ := hone.of_silent hv
      exact ⟨_, .prepare rest, hat⟩
    · obtain ⟨rfl, rfl⟩ := hone.of_output hv
      exact ⟨_, .close byte more, hat⟩
    · exact absurd hv hone.ne_halt

/-- What the program answers to a stream that ends in a zero. -/
def answer (bytes : Bytes) : Bytes := bytes.map fun byte => byte - 32

/-- What has been sent, and is to be sent, is the answer to what has been taken. -/
def Balanced (seen : List Exchange) : Task → Prop
  | .ask => sentBytes seen = answer (receivedBytes seen) ∧ 0 ∉ receivedBytes seen
  | .reply _ byte => sentBytes seen ++ [byte] = answer (receivedBytes seen) ∧ 0 ∉ receivedBytes seen
  | .finish rest => ∃ past, receivedBytes seen = past ++ [0] ∧ 0 ∉ past ∧
    sentBytes seen ++ rest = answer past ++ [10]

theorem Balanced.next {task task' : Task} {seen seen' : List Exchange} (h : Balanced seen task)
    (hn : Next task seen' task') : Balanced (seen ++ seen') task' := by
  cases hn with
  | take byte =>
    obtain ⟨hsent, hpast⟩ := h
    have hreceived : receivedBytes (seen ++ [.received byte]) = receivedBytes seen ++ [byte] :=
      receivedBytes_append seen _
    have hsame : sentBytes (seen ++ [.received byte]) = sentBytes seen := by
      rw [sentBytes_append]
      exact List.append_nil _
    unfold Task.taken
    split
    · next hzero =>
      subst hzero
      exact ⟨_, hreceived, hpast, by rw [hsame, hsent]⟩
    · next hne =>
      refine ⟨?_, ?_⟩
      · rw [hsame, hreceived, hsent]
        simp [answer]
      · rw [hreceived, List.mem_append, List.mem_singleton]
        rintro (hin | heq)
        · exact hpast hin
        · exact hne heq.symm
  | work lead byte =>
    rw [List.append_nil]
    exact h
  | reply byte =>
    have hreceived : receivedBytes (seen ++ [.sent byte]) = receivedBytes seen := by
      rw [receivedBytes_append]
      exact List.append_nil _
    have hsent : sentBytes (seen ++ [.sent byte]) = sentBytes seen ++ [byte] := sentBytes_append seen _
    refine ⟨?_, ?_⟩
    · rw [hsent, hreceived]
      exact h.1
    · rw [hreceived]
      exact h.2
  | prepare rest =>
    rw [List.append_nil]
    exact h
  | close byte rest =>
    -- The byte goes over from what is to be sent to what has been sent.
    obtain ⟨past, hreceived, hpast, hsent⟩ := h
    refine ⟨past, ?_, hpast, ?_⟩
    · rw [receivedBytes_append, hreceived]
      exact List.append_nil _
    · rw [sentBytes_append, ← hsent, List.append_assoc]
      rfl

end

end Image

end BrainfuckBoard
