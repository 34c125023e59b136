import BrainfuckBoard.Language.Outcome
import BrainfuckBoard.Text.Bytes

/- What a run says to the outside and what it is told. A run is made of single steps
   (`OneStep`), and the bytes that come in decide it: two runs that halt on the same
   input are one and the same (`Run.halt_unique`). -/
namespace BrainfuckBoard

def sentBytes (seen : List Exchange) : Bytes :=
  seen.filterMap fun
    | .sent byte => some byte
    | .received _ => none

def receivedBytes (seen : List Exchange) : Bytes :=
  seen.filterMap fun
    | .sent _ => none
    | .received byte => some byte

theorem sentBytes_append (a b : List Exchange) : sentBytes (a ++ b) = sentBytes a ++ sentBytes b :=
  List.filterMap_append

theorem receivedBytes_append (a b : List Exchange) :
    receivedBytes (a ++ b) = receivedBytes a ++ receivedBytes b :=
  List.filterMap_append

section
variable {σ : Type} {step : σ → Outcome σ} {s t u : σ} {seen : List Exchange}

/-- One step, and what it exchanges. -/
inductive OneStep (step : σ → Outcome σ) (s : σ) : List Exchange → σ → Prop
  | silent {t : σ} : step s = .silent t → OneStep step s [] t
  | output {byte : UInt8} {t : σ} : step s = .output byte t → OneStep step s [.sent byte] t
  | input {byte : UInt8} {next : UInt8 → σ} : step s = .input next →
      OneStep step s [.received byte] (next byte)

theorem OneStep.run (h : OneStep step s seen t) : Run step s seen t := by
  cases h with
  | silent hs => exact .silent hs (.here t)
  | output hs => exact .output hs (.here t)
  | input hs => exact .input hs (.here _)

theorem OneStep.of_silent (h : OneStep step s seen u) (hs : step s = .silent t) : seen = [] ∧ u = t := by
  cases h with
  | silent hs' => rw [hs] at hs'; cases hs'; exact ⟨rfl, rfl⟩
  | output hs' => rw [hs] at hs'; cases hs'
  | input hs' => rw [hs] at hs'; cases hs'

theorem OneStep.of_output (h : OneStep step s seen u) {byte : UInt8} (hs : step s = .output byte t) :
    seen = [.sent byte] ∧ u = t := by
  cases h with
  | silent hs' => rw [hs] at hs'; cases hs'
  | output hs' => rw [hs] at hs'; cases hs'; exact ⟨rfl, rfl⟩
  | input hs' => rw [hs] at hs'; cases hs'

theorem OneStep.of_input (h : OneStep step s seen u) {next : UInt8 → σ} (hs : step s = .input next) :
    ∃ byte, seen = [.received byte] ∧ u = next byte := by
  cases h with
  | silent hs' => rw [hs] at hs'; cases hs'
  | output hs' => rw [hs] at hs'; cases hs'
  | input hs' => rw [hs] at hs'; cases hs'; exact ⟨_, rfl, rfl⟩

theorem OneStep.ne_halt (h : OneStep step s seen t) : step s ≠ .halt := by
  cases h with
  | silent hs => rw [hs]; exact nofun
  | output hs => rw [hs]; exact nofun
  | input hs => rw [hs]; exact nofun

/-- A step is decided by the state, and by the byte that is next in the input. -/
theorem OneStep.unique (h : OneStep step s seen t) {seen' : List Exchange} {input : Bytes}
    (h' : OneStep step s seen' u) (hin : receivedBytes seen <+: input)
    (hin' : receivedBytes seen' <+: input) : seen' = seen ∧ u = t := by
  cases h with
  | silent hs => exact h'.of_silent hs
  | output hs => exact h'.of_output hs
  | input hs =>
    obtain ⟨byte', rfl, rfl⟩ := h'.of_input hs
    obtain ⟨rest, hinput⟩ := hin
    obtain ⟨rest', hinput'⟩ := hin'
    obtain ⟨rfl, -⟩ := List.cons.inj (hinput.trans hinput'.symm)
    exact ⟨rfl, rfl⟩

theorem Run.first (h : Run step s seen u) : (seen = [] ∧ u = s) ∨
    ∃ now t later, OneStep step s now t ∧ Run step t later u ∧ seen = now ++ later := by
  cases h with
  | here => exact .inl ⟨rfl, rfl⟩
  | silent hs hrest => exact .inr ⟨[], _, _, .silent hs, hrest, rfl⟩
  | output hs hrest => exact .inr ⟨[.sent _], _, _, .output hs, hrest, rfl⟩
  | input hs hrest => exact .inr ⟨[.received _], _, _, .input hs, hrest, rfl⟩

/-- Induction over a run by its steps, whatever they exchange. -/
@[elab_as_elim]
theorem Run.byStep {motive : ∀ (s : σ) (seen : List Exchange) (u : σ), Run step s seen u → Prop}
    (here : ∀ s, motive s [] s (.here s))
    (next : ∀ {s t u : σ} {now later : List Exchange} (hone : OneStep step s now t)
      (hrest : Run step t later u), motive t later u hrest → motive s (now ++ later) u (hone.run.trans hrest))
    {s : σ} {seen : List Exchange} {u : σ} (h : Run step s seen u) : motive s seen u h := by
  induction h with
  | here s => exact here s
  | silent hs hrest ih => exact next (.silent hs) hrest ih
  | output hs hrest ih => exact next (.output hs) hrest ih
  | input hs hrest ih => exact next (.input hs) hrest ih

theorem Run.halt_unique (h : Run step s seen u) (hu : step u = .halt) : ∀ {seen' : List Exchange} {v : σ}
    {input : Bytes}, Run step s seen' v → step v = .halt → receivedBytes seen <+: input →
    receivedBytes seen' <+: input → seen' = seen ∧ v = u := by
  induction h using Run.byStep with
  | here =>
    intro seen' v input h' _ _ _
    rcases h'.first with hnothing | ⟨_, _, _, hone, -⟩
    · exact hnothing
    · exact absurd hu hone.ne_halt
  | next hone _ ih =>
    intro seen' v input h' hv hin hin'
    rcases h'.first with ⟨rfl, rfl⟩ | ⟨now', t', later', hone', hrest, rfl⟩
    · exact absurd hv hone.ne_halt
    · rw [receivedBytes_append] at hin hin'
      obtain ⟨rfl, rfl⟩ := hone.unique hone' ((List.prefix_append _ _).trans hin)
        ((List.prefix_append _ _).trans hin')
      -- Both runs go on from the same state, with what is left of the input.
      obtain ⟨rest, rfl⟩ := hin
      rw [List.append_assoc, List.prefix_append_right_inj] at hin'
      obtain ⟨rfl, rfl⟩ := ih hu hrest hv (List.prefix_append _ _) hin'
      exact ⟨rfl, rfl⟩

end

end BrainfuckBoard
