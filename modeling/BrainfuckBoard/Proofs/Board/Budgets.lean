import BrainfuckBoard.Proofs.Board.Course

/- Runs with a budget. Such a run looks for its goal between steps, stops at the first look that
   finds it, and goes on to the end of its budget if none does (`Ends`). The runs differ in when
   they look. The one that waits for the halt looks before each step and once more at the end.
   Draining looks before each step only, and the run of one instruction after each step but the
   last: what they reach with the last step of the budget they do not report
   (`last_step_unnoticed`). Whatever is reported is true, and the board is always the one that the
   steps lead to (`outcome_of_budget`). -/
namespace BrainfuckBoard.Board

/-- The goal is there after `k` steps, and after none of the steps from `first` on before that. -/
structure FirstAt (goal : Board → Bool) (first : Nat) (b : Board) (k : Nat) : Prop where
  after_first : first ≤ k
  reached : goal (steps k b) = true
  not_before : ∀ j, first ≤ j → j < k → goal (steps j b) = false

/-- How a run ends that looks for the goal after each number of steps from `first` on that is
    below `limit`. -/
inductive Ends (goal : Board → Bool) (first limit budget : Nat) (b : Board) : Bool × Board → Prop
  | found (k : Nat) (hk : k < limit) (h : FirstAt goal first b k) :
      Ends goal first limit budget b (true, steps k b)
  | spent (h : ∀ k, first ≤ k → k < limit → goal (steps k b) = false) :
      Ends goal first limit budget b (false, steps budget b)

section
variable {goal : Board → Bool} {first limit budget : Nat} {b : Board} {result : Bool × Board}

/-! ## One step -/

theorem Ends.now (h : goal b = true) : Ends goal 0 (limit + 1) budget b (true, b) :=
  .found 0 (Nat.succ_pos limit) ⟨Nat.le_refl 0, h, fun _ _ hj => absurd hj (Nat.not_lt_zero _)⟩

/-- A step before the run, without a look. -/
theorem Ends.later (h : Ends goal first limit budget b.step result) :
    Ends goal (first + 1) (limit + 1) (budget + 1) b result := by
  cases h with
  | found k hk h =>
    refine .found (k + 1) (Nat.succ_lt_succ hk) ⟨Nat.succ_le_succ h.after_first, h.reached, ?_⟩
    rintro (_ | j) hfirst hj
    · exact absurd hfirst (Nat.not_succ_le_zero first)
    · exact h.not_before j (Nat.le_of_succ_le_succ hfirst) (Nat.lt_of_succ_lt_succ hj)
  | spent h =>
    refine .spent ?_
    rintro (_ | k) hfirst hk
    · exact absurd hfirst (Nat.not_succ_le_zero first)
    · exact h k (Nat.le_of_succ_le_succ hfirst) (Nat.lt_of_succ_lt_succ hk)

/-- A look that finds nothing. -/
theorem Ends.missed (h : Ends goal 1 limit budget b result) (hb : goal b = false) :
    Ends goal 0 limit budget b result := by
  cases h with
  | found k hk h =>
    refine .found k hk ⟨Nat.zero_le k, h.reached, ?_⟩
    rintro (_ | j) - hj
    · exact hb
    · exact h.not_before (j + 1) (Nat.succ_pos j) hj
  | spent h =>
    refine .spent ?_
    rintro (_ | k) - hk
    · exact hb
    · exact h (k + 1) (Nat.succ_pos k) hk

/-! ## The three runs -/

theorem ends_runUntilHalt : ∀ (budget : Nat) (b : Board),
    Ends halted 0 (budget + 1) budget b (b.runUntilHalt budget)
  | 0, b => by
    show Ends halted 0 1 0 b (b.halted, b)
    cases hb : b.halted with
    | true => exact .now hb
    | false =>
      refine .spent fun k _ hk => ?_
      obtain rfl : k = 0 := Nat.lt_one_iff.mp hk
      exact hb
  | budget + 1, b => by
    cases hb : b.halted with
    | true =>
      have hrun : b.runUntilHalt (budget + 1) = (true, b) := by simp [runUntilHalt, stepWhile, hb]
      rw [hrun]
      exact .now hb
    | false =>
      have hrun : b.runUntilHalt (budget + 1) = b.step.runUntilHalt budget := by
        simp [runUntilHalt, stepWhile, hb]
      rw [hrun]
      exact (ends_runUntilHalt budget b.step).later.missed hb

theorem ends_drain : ∀ (budget : Nat) (b : Board), Ends drained 0 budget budget b (drain budget b)
  | 0, b => .spent fun _ _ hk => absurd hk (Nat.not_lt_zero _)
  | budget + 1, b => by
    unfold drain
    split
    · next hb => exact .now hb
    · next hb => exact (ends_drain budget b.step).later.missed (Bool.eq_false_iff.mpr hb)

theorem ends_stepToBoundary : ∀ (more : Nat) (b : Board),
    Ends atBoundary 1 (more + 1) (more + 1) b (stepToBoundary more b)
  | 0, b => .spent fun _ hfirst hk => absurd hfirst (Nat.not_le_of_lt hk)
  | more + 1, b => by
    dsimp only [stepToBoundary]
    split
    · next hb => exact (Ends.now hb).later
    · next hb => exact ((ends_stepToBoundary more b.step).missed (Bool.eq_false_iff.mpr hb)).later

theorem ends_stepInstruction (hbudget : 1 ≤ budget) (hb : b.cpu.busy = true) :
    Ends atBoundary 1 budget budget b (b.stepInstruction budget) := by
  have hrun : b.stepInstruction budget = stepToBoundary (budget - 1) b := by
    unfold stepInstruction
    split
    · next hp => simp [Cpu.busy, hp] at hb
    · next hp => simp [Cpu.busy, hp] at hb
    · rfl
  have hends := ends_stepToBoundary (budget - 1) b
  rwa [Nat.sub_add_cancel hbudget, ← hrun] at hends

/-! ## What is reported -/

/-- The report of a run that looks below `limit`, and the board it leaves. -/
structure Reports (goal : Board → Bool) (first limit budget : Nat) (b : Board) (result : Bool × Board) :
    Prop where
  truth : result.1 = true ↔ ∃ k, first ≤ k ∧ k < limit ∧ goal (steps k b) = true
  least : result.1 = true → ∃ k, k < limit ∧ FirstAt goal first b k ∧ result.2 = steps k b
  spent : result.1 = false → result.2 = steps budget b

theorem Ends.reports (h : Ends goal first limit budget b result) : Reports goal first limit budget b result := by
  cases h with
  | found k hk h =>
    exact ⟨⟨fun _ => ⟨k, h.after_first, hk, h.reached⟩, fun _ => rfl⟩, fun _ => ⟨k, hk, h, rfl⟩, nofun⟩
  | spent h =>
    refine ⟨⟨nofun, ?_⟩, nofun, fun _ => rfl⟩
    rintro ⟨k, hfirst, hk, hreached⟩
    exact absurd hreached (ne_true_of_eq_false (h k hfirst hk))

/-- All runs of the board with this budget. -/
structure Outcome (b : Board) (budget : Nat) : Prop where
  halt : Reports halted 0 (budget + 1) budget b (b.runUntilHalt budget)
  drain : Reports drained 0 budget budget b (Board.drain budget b)
  instruction : b.cpu.busy = true → Reports atBoundary 1 budget budget b (b.stepInstruction budget)

theorem outcome_of_budget (b : Board) (hbudget : 1 ≤ budget) : b.Outcome budget where
  halt := (ends_runUntilHalt budget b).reports
  drain := (ends_drain budget b).reports
  instruction := fun hb => (ends_stepInstruction hbudget hb).reports

/-! ## The last step of a budget -/

/-- At sixteen steps to a bit: an instruction of four steps is about to be fetched, and the wire
    has four steps to go until it is at rest. -/
def lastSteps : Board :=
  (ofConfig ⟨1843200, 115200, 10⟩).after
    [.loadProgram (List.replicate 31 33), .send [255], .step 171, .pulseRunStart, .step 1]

/-- A step more, and both would be reported. -/
theorem outcome_of_budget_last :
    1 ≤ 5 ∧ lastSteps.Outcome 5 ∧ (lastSteps.stepInstruction 5).1 = true ∧ (drain 5 lastSteps).1 = true :=
  ⟨by decide, outcome_of_budget lastSteps (by decide), by decide +kernel, by decide +kernel⟩

/-- The instruction is over and the wire at rest after four steps, and neither is reported. -/
theorem last_step_unnoticed :
    (lastSteps.Reachable ∧ lastSteps.cpu.busy = true) ∧
      ((steps 4 lastSteps).atBoundary = true ∧ (lastSteps.stepInstruction 4).1 = false) ∧
      ((steps 4 lastSteps).drained = true ∧ (drain 4 lastSteps).1 = false) :=
  ⟨⟨(Reachable.start _).after _, by decide +kernel⟩, by decide +kernel, by decide +kernel⟩

end

end BrainfuckBoard.Board
