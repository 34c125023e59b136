import BrainfuckBoard.Proofs.Board.Budgets
import BrainfuckBoard.Proofs.Board.Upload
import BrainfuckBoard.Proofs.Board.Spans
import BrainfuckBoard.Proofs.Session.Conduct

/- Runs to a halt or a breakpoint. `g` looks between clock steps, `r` between instructions, and
   both leave the board at the first stop after the start (`runOn_of_stop`,
   `runInstructions_of_stop`). They take a breakpoint for reached by different signs: `g` if an
   instruction at it is about to be fetched, `r` if the address is one with a breakpoint. The two
   agree but for one case, a run that starts at a breakpoint whose instruction is the halt word:
   that instruction does not move the address, and only `r` announces a breakpoint
   (`compared_of_stop`, `halt_announced`). -/
namespace BrainfuckBoard

namespace Cpu

/-- The phase before this one, on the way of a word from the store to its execution. -/
def Phase.before : Phase → Option Phase
  | waitFetch => some fetch
  | decode => some waitFetch
  | halt => some decode
  | _ => none

section
variable {c : Cpu} {i : Inputs} {programDepth tapeDepth : Nat} {p : Phase}

theorem execute_before : (c.execute i programDepth tapeDepth).1.phase.before = none := by
  unfold execute
  split
  case h_5 =>
    dsimp only
    split <;> rfl
  case h_6 => split <;> rfl
  all_goals rfl

/-- On its way to the halt an instruction keeps its address. -/
theorem step_before (h : (c.step i programDepth tapeDepth).1.phase.before = some p) (hhalt : c.phase ≠ .halt) :
    c.phase = p ∧ (c.step i programDepth tapeDepth).1.pc = c.pc := by
  unfold step at h ⊢
  split at h
  case h_1 hp =>
    split at h
    · exact absurd h nofun
    · rw [hp] at h
      exact absurd h nofun
  case h_2 hp => exact ⟨hp.trans (Option.some.inj h), rfl⟩
  case h_3 hp => exact ⟨hp.trans (Option.some.inj h), rfl⟩
  case h_4 hp =>
    refine ⟨hp.trans ?_, rfl⟩
    dsimp only [decoded] at h
    split at h
    · exact Option.some.inj h
    · split at h <;> exact absurd h nofun
  case h_7 =>
    rw [execute_before] at h
    exact absurd h nofun
  case h_9 hp =>
    split at h
    · rw [hp] at h
      exact absurd h nofun
    · exact absurd h nofun
  case h_10 hp =>
    split at h
    · exact absurd h nofun
    · rw [hp] at h
      exact absurd h nofun
  case h_11 hp => exact absurd hp hhalt
  all_goals exact absurd h nofun

end

end Cpu

namespace Board

section
variable {goal : Board → Bool} {first first' c k : Nat} {b : Board} {p : Cpu.Phase}

theorem halted_iff : b.halted = true ↔ b.cpu.phase = .halt := by
  simp [halted, Cpu.halted]

theorem halted_of_fetch (hp : b.cpu.phase = .fetch) : b.halted = false :=
  Bool.eq_false_iff.mpr fun h => absurd ((halted_iff.mp h).symm.trans hp) nofun

theorem atBoundary_iff : b.atBoundary = true ↔
    b.cpu.phase = .fetch ∨ b.cpu.phase = .idle ∨ b.cpu.phase = .halt := by
  cases hp : b.cpu.phase <;> simp [atBoundary, Cpu.busy, hp]

/-! ## First times -/

/-- From a later board on. -/
theorem FirstAt.after (h : FirstAt goal first b (c + k)) : FirstAt goal (first - c) (steps c b) k where
  after_first := Nat.sub_le_of_le_add (Nat.add_comm k c ▸ h.after_first)
  reached := by rw [← steps_add]; exact h.reached
  not_before j hfirst hj := by
    rw [← steps_add]
    exact h.not_before (c + j) (by omega) (by omega)

theorem FirstAt.weaken (h : FirstAt goal first b k) (hfirst : first ≤ first') (hk : first' ≤ k) :
    FirstAt goal first' b k :=
  ⟨hk, h.reached, fun j hj => h.not_before j (Nat.le_trans hfirst hj)⟩

theorem FirstAt.le (h : FirstAt goal first b k) (hfirst : first ≤ c) (hc : goal (steps c b) = true) : k ≤ c :=
  Nat.le_of_not_lt fun hlt => ne_true_of_eq_false (h.not_before c hfirst hlt) hc

/-! ## One step -/

theorem step_before (h : b.step.cpu.phase.before = some p) (hhalt : b.halted = false) :
    b.cpu.phase = p ∧ b.step.cpu.pc = b.cpu.pc := by
  cases hreset : b.inReset with
  | true =>
    have hcpu : b.step.cpu = {} := by
      rw [show b.step.cpu = (b.nextChip b.inReset).core.cpu from rfl, hreset]
      rfl
    rw [hcpu] at h
    exact absurd h nofun
  | false =>
    have hcpu : b.step.cpu = (b.chip.core.cpuStep (b.chip.coreInputs b.drivenPins)).1 := by
      rw [show b.step.cpu = b.step.chip.core.cpu from rfl, step_chip_of_run hreset]
      rfl
    rw [hcpu] at h ⊢
    exact Cpu.step_before h fun hp => absurd (halted_iff.mpr hp) (ne_true_of_eq_false hhalt)

/-- Without a pulse the processor does not start. -/
theorem idle_step (hp : b.cpu.phase = .idle) (hstart : b.pins.runStart = false) :
    b.step.cpu.phase = .idle := by
  cases hreset : b.inReset with
  | true =>
    rw [show b.step.cpu = (b.nextChip b.inReset).core.cpu from rfl, hreset]
    rfl
  | false =>
    have hrun : (b.chip.coreInputs b.drivenPins).runStart = false := by
      have hdriven : b.drivenPins.runStart = b.pins.runStart := by
        unfold drivenPins
        split <;> rfl
      simp [Chip.coreInputs, hdriven, hstart]
    rw [show b.step.cpu = b.step.chip.core.cpu from rfl, step_chip_of_run hreset]
    change (b.chip.core.cpuStep _).1.phase = _
    rw [Core.requests_idle hp hrun]
    exact hp

theorem idle_steps (hp : b.cpu.phase = .idle) (hstart : b.pins.runStart = false) (n : Nat) :
    (steps n b).cpu.phase = .idle := by
  induction n generalizing b with
  | zero => exact hp
  | succ n ih => exact ih (idle_step hp hstart) rfl

end

end Board

namespace Session

open Board

/-- A run ends here: the program is over, or the next instruction is one with a breakpoint. -/
def stops (breaks : List UInt8) (b : Board) : Bool := b.halted || atBreak breaks b

/-- How many instructions are over after `k` steps. -/
def instructions (b : Board) (k : Nat) : Nat :=
  (List.range k).countP fun j => (steps (j + 1) b).atBoundary

/-- Every instruction that begins in the first `k` steps is over within its budget. -/
def Brisk (b : Board) (k : Nat) : Prop :=
  ∀ i < k, (steps i b).atBoundary = true →
    ∃ j, i < j ∧ j < i + instructionBudget ∧ (steps j b).atBoundary = true

/-- A run that begins with an instruction comes to its first stop after `k` steps, and in time. -/
structure Stops (breaks : List UInt8) (b : Board) (k : Nat) : Prop where
  fetching : b.cpu.phase = .fetch
  first : FirstAt (stops breaks) 1 b k
  within : k < runBudget
  brisk : Brisk b k

section
variable {breaks : List UInt8} {b : Board} {c k n budget : Nat}

theorem atBreak_iff : atBreak breaks b = true ↔ b.cpu.phase = .fetch ∧ b.cpu.pc ∈ breaks := by
  simp [atBreak]

theorem stops_iff : stops breaks b = true ↔ b.cpu.phase = .halt ∨ b.cpu.phase = .fetch ∧ b.cpu.pc ∈ breaks := by
  rw [stops, Bool.or_eq_true, halted_iff, atBreak_iff]

theorem atBoundary_of_stops (h : stops breaks b = true) : b.atBoundary = true := by
  rcases stops_iff.mp h with hp | ⟨hp, -⟩
  · exact atBoundary_iff.mpr (.inr (.inr hp))
  · exact atBoundary_iff.mpr (.inl hp)

theorem Brisk.after (h : Brisk b (c + k)) : Brisk (steps c b) k := by
  intro i hi hboundary
  rw [← steps_add] at hboundary
  obtain ⟨j, hij, hj, hover⟩ := h (c + i) (Nat.add_lt_add_left hi c) hboundary
  obtain ⟨m, rfl⟩ := Nat.exists_eq_add_of_le (show c ≤ j by omega)
  exact ⟨m, by omega, by omega, by rwa [← steps_add]⟩

/-! ## The run by clock steps -/

theorem runOn_of_stop (h : FirstAt (stops breaks) 0 b k) (hk : k < budget) :
    runOn breaks budget b = (if (steps k b).halted then .done else .breakpoint, steps k b) := by
  induction k generalizing b budget with
  | zero =>
    obtain ⟨m, rfl⟩ := Nat.exists_eq_add_of_lt hk
    rw [Nat.zero_add]
    unfold runOn
    have hstop : (b.halted || atBreak breaks b) = true := h.reached
    cases hb : b.halted with
    | true => simp [steps, hb]
    | false =>
      rw [hb, Bool.false_or] at hstop
      simp [steps, hb, hstop]
  | succ k ih =>
    obtain ⟨m, rfl⟩ : ∃ m, budget = m + 1 := ⟨budget - 1, by omega⟩
    have hgo : (b.halted || atBreak breaks b) = false := h.not_before 0 (Nat.le_refl 0) (Nat.succ_pos k)
    obtain ⟨hb, hbreak⟩ := Bool.or_eq_false_iff.mp hgo
    have hnext : FirstAt (stops breaks) 0 b.step k := (Nat.add_comm k 1 ▸ h).after
    unfold runOn
    rw [hb, hbreak]
    exact ih hnext (Nat.lt_of_succ_lt_succ hk)

theorem go_of_stop (h : Stops breaks b k) :
    go breaks b = (if (steps k b).halted then .done else .breakpoint, steps k b) := by
  obtain ⟨j, rfl⟩ : ∃ j, k = 1 + j := ⟨k - 1, by have := h.first.after_first; omega⟩
  have hnext : FirstAt (stops breaks) 0 b.step j := h.first.after
  have hrun := runOn_of_stop hnext (show j < runBudget - 1 by have := h.within; omega)
  unfold go
  rw [if_neg (ne_true_of_eq_false (halted_of_fetch h.fetching)), hrun, steps_add]
  rfl

/-! ## The run by instructions -/

/-- The first instruction, and what comes after it. -/
theorem instructions_first (h : FirstAt atBoundary 1 b c) (hc : c ≤ k) :
    instructions b k = instructions (steps c b) (k - c) + 1 := by
  obtain ⟨d, rfl⟩ : ∃ d, c = d + 1 := ⟨c - 1, by have := h.after_first; omega⟩
  obtain ⟨m, rfl⟩ := Nat.exists_eq_add_of_le hc
  have hbefore : (List.range d).countP (fun j => (steps (j + 1) b).atBoundary) = 0 := by
    refine List.countP_eq_zero.mpr fun j hj => ?_
    rw [h.not_before (j + 1) (Nat.le_add_left 1 j) (Nat.succ_lt_succ (List.mem_range.mp hj))]
    exact Bool.false_ne_true
  have hshift : (fun j => (steps (j + 1) b).atBoundary) ∘ (fun j => d + 1 + j) =
      fun j => (steps (j + 1) (steps (d + 1) b)).atBoundary := by
    funext j
    rw [Function.comp_apply, ← steps_add, Nat.add_assoc]
  rw [Nat.add_sub_cancel_left, instructions, List.range_add, List.countP_append, List.range_succ,
    List.countP_append, hbefore, List.countP_singleton, if_pos h.reached, List.countP_map, hshift, instructions]
  exact Nat.add_comm _ _

/-- An instruction that is over within its budget. -/
theorem stepInstruction_of_brisk (hb : b.cpu.phase = .fetch) (hbrisk : Brisk b k) (hk : 0 < k) :
    ∃ c, FirstAt atBoundary 1 b c ∧ b.stepInstruction instructionBudget = (true, steps c b) := by
  have hbusy : b.cpu.busy = true := by rw [Cpu.busy, hb]; rfl
  have hallowed : 1 ≤ instructionBudget := by decide
  have hreports := (ends_stepInstruction hallowed hbusy).reports
  obtain ⟨j, hj, hbudget, hover⟩ := hbrisk 0 hk (atBoundary_iff.mpr (.inl hb))
  rw [Nat.zero_add] at hbudget
  have hdone : (b.stepInstruction instructionBudget).1 = true := hreports.truth.mpr ⟨j, hj, hbudget, hover⟩
  obtain ⟨c, -, hc, hboard⟩ := hreports.least hdone
  exact ⟨c, hc, Prod.ext hdone hboard⟩

theorem runInstructions_halted (h : b.halted = true) : runInstructions breaks n b = (.done, b) := by
  cases n with
  | zero => rfl
  | succ n => rw [runInstructions, if_pos h]

/-- Between its first instruction and its first stop a run is at no breakpoint. -/
theorem goes_on (hstop : stops breaks (steps k (steps c b)) = true) (hc : 0 < c)
    (hboundary : (steps c b).atBoundary = true) (hgo : stops breaks (steps c b) = false) :
    (steps c b).cpu.phase = .fetch ∧ (steps c b).cpu.pc ∉ breaks := by
  have hne := fun h => ne_true_of_eq_false hgo (stops_iff.mpr h)
  rcases atBoundary_iff.mp hboundary with hp | hp | hp
  · exact ⟨hp, fun hpc => hne (.inr ⟨hp, hpc⟩)⟩
  · -- A reset has stopped the processor, and nothing starts it again.
    have hstart : (steps c b).pins.runStart = false := by
      obtain ⟨d, rfl⟩ : ∃ d, c = d + 1 := ⟨c - 1, by omega⟩
      rw [steps_succ]
      rfl
    have hidle := idle_steps hp hstart k
    rcases stops_iff.mp hstop with hp' | ⟨hp', -⟩
    · exact absurd (hidle.symm.trans hp') nofun
    · exact absurd (hidle.symm.trans hp') nofun
  · exact absurd (.inl hp) hne

theorem runInstructions_of_stop (hb : b.cpu.phase = .fetch) (hfirst : FirstAt (stops breaks) 1 b k)
    (hbrisk : Brisk b k) (hn : instructions b k ≤ n) :
    runInstructions breaks n b =
      (if (steps k b).cpu.pc ∈ breaks then .breakpoint else .done, steps k b) := by
  induction n generalizing b k with
  | zero =>
    obtain ⟨c, hc, -⟩ := stepInstruction_of_brisk hb hbrisk hfirst.after_first
    rw [instructions_first hc (hc.le hfirst.after_first (atBoundary_of_stops hfirst.reached))] at hn
    exact absurd hn (Nat.not_succ_le_zero _)
  | succ n ih =>
    obtain ⟨c, hc, hstep⟩ := stepInstruction_of_brisk hb hbrisk hfirst.after_first
    have hck : c ≤ k := hc.le hfirst.after_first (atBoundary_of_stops hfirst.reached)
    obtain ⟨m, rfl⟩ := Nat.exists_eq_add_of_le hck
    rw [instructions_first hc hck, Nat.add_sub_cancel_left] at hn
    rw [runInstructions, if_neg (ne_true_of_eq_false (halted_of_fetch hb)), hstep]
    dsimp only
    rcases Nat.eq_zero_or_pos m with rfl | hm
    · have hstop : stops breaks (steps c b) = true := hfirst.reached
      rw [Nat.add_zero]
      by_cases hpc : (steps c b).cpu.pc ∈ breaks
      · rw [if_pos hpc, if_pos (List.contains_iff_mem.mpr hpc)]
      · have hhalt : (steps c b).halted = true := by
          rcases stops_iff.mp hstop with hp | ⟨-, hpc'⟩
          · exact halted_iff.mpr hp
          · exact absurd hpc' hpc
        rw [if_neg hpc, if_neg (mt List.contains_iff_mem.mp hpc), runInstructions_halted hhalt]
    · have hrest : FirstAt (stops breaks) 1 (steps c b) m :=
        hfirst.after.weaken (Nat.sub_le 1 c) hm
      obtain ⟨hfetch, hpc⟩ := goes_on hrest.reached hc.after_first hc.reached
        (hfirst.not_before c hc.after_first (Nat.lt_add_of_pos_right hm))
      rw [if_neg (mt List.contains_iff_mem.mp hpc), ih hfetch hrest hbrisk.after (Nat.le_of_succ_le_succ hn),
        steps_add]

/-! ## A halt at a breakpoint -/

/-- The last three steps before a halt. -/
theorem fetched_of_halt (hb : b.cpu.phase = .fetch) (hfirst : FirstAt (stops breaks) 1 b k)
    (hhalt : (steps k b).halted = true) :
    ∃ j, k = j + 3 ∧ (steps j b).cpu.phase = .fetch ∧ (steps k b).cpu.pc = (steps j b).cpu.pc := by
  -- A step that does not lead to the stop starts where the last one ended.
  have hback : ∀ {i p}, (steps (i + 1) b).cpu.phase.before = some p → i < k →
      (steps i b).cpu.phase = p ∧ (steps (i + 1) b).cpu.pc = (steps i b).cpu.pc := by
    intro i p hp hi
    rw [steps_succ] at hp ⊢
    refine step_before hp ?_
    cases i with
    | zero => exact halted_of_fetch hb
    | succ i => exact (Bool.or_eq_false_iff.mp (hfirst.not_before (i + 1) (Nat.le_add_left 1 i) hi)).1
  have hpos : ∀ {i p}, (steps i b).cpu.phase = p → p ≠ .fetch → ∃ j, i = j + 1 := by
    rintro (_ | i) p hp hne
    · exact absurd (hp.symm.trans hb) hne
    · exact ⟨i, rfl⟩
  obtain ⟨i, rfl⟩ := hpos (halted_iff.mp hhalt) nofun
  obtain ⟨hdecode, hpc⟩ := hback (by rw [halted_iff.mp hhalt]; rfl) (Nat.lt_succ_self i)
  obtain ⟨i, rfl⟩ := hpos hdecode nofun
  obtain ⟨hwait, hpc'⟩ := hback (by rw [hdecode]; rfl) (by omega)
  obtain ⟨i, rfl⟩ := hpos hwait nofun
  obtain ⟨hfetch, hpc''⟩ := hback (by rw [hwait]; rfl) (by omega)
  exact ⟨i, rfl, hfetch, hpc.trans (hpc'.trans hpc'')⟩

/-- A run halts at a breakpoint only where it starts. -/
theorem halts_at_break_iff (hb : b.cpu.phase = .fetch) (hfirst : FirstAt (stops breaks) 1 b k) :
    (steps k b).halted = true ∧ (steps k b).cpu.pc ∈ breaks ↔
      b.cpu.pc ∈ breaks ∧ k = 3 ∧ (steps 3 b).halted = true := by
  constructor
  · rintro ⟨hhalt, hpc⟩
    obtain ⟨j, rfl, hfetch, hsame⟩ := fetched_of_halt hb hfirst hhalt
    rw [hsame] at hpc
    rcases Nat.eq_zero_or_pos j with rfl | hj
    · exact ⟨hpc, rfl, hhalt⟩
    · exact absurd (stops_iff.mpr (.inr ⟨hfetch, hpc⟩))
        (ne_true_of_eq_false (hfirst.not_before j hj (by omega)))
  · rintro ⟨hpc, rfl, hhalt⟩
    obtain ⟨j, hj, -, hsame⟩ := fetched_of_halt hb hfirst hhalt
    obtain rfl : j = 0 := by omega
    exact ⟨hhalt, hsame ▸ hpc⟩

/-! ## The two commands -/

/-- What `g` and `r` do in a session whose run stops after `k` steps. -/
structure Compared (s : Session) (k n : Nat) : Prop where
  go : ∀ content, s.respond .go content =
    s.shown (if (steps k s.board).halted then "" else remark .breakpoint (steps k s.board)) (steps k s.board)
  run : ∀ content, s.respond (.runInstructions n) content =
    s.shown (if (steps k s.board).cpu.pc ∈ s.breaks then remark .breakpoint (steps k s.board) else "")
      (steps k s.board)
  agree : ¬ (s.board.cpu.pc ∈ s.breaks ∧ k = 3 ∧ (steps 3 s.board).halted = true) →
    ∀ content, s.respond .go content = s.respond (.runInstructions n) content
  differ : s.board.cpu.pc ∈ s.breaks ∧ k = 3 ∧ (steps 3 s.board).halted = true →
    ∀ content, s.respond .go content = s.shown "" (steps 3 s.board) ∧
      s.respond (.runInstructions n) content = s.shown (remark .breakpoint (steps 3 s.board)) (steps 3 s.board)

/-- With any breakpoints, from any board that is about to fetch an instruction. -/
theorem compared_of_stop (s : Session) (h : Stops s.breaks s.board k) (hn : instructions s.board k ≤ n) :
    Compared s k n := by
  have hgo : ∀ content, s.respond .go content = s.shown (if (steps k s.board).halted then "" else
      remark .breakpoint (steps k s.board)) (steps k s.board) := by
    intro content
    simp only [respond, go_of_stop h]
    split <;> rfl
  have hrun : ∀ content, s.respond (.runInstructions n) content = s.shown (if (steps k s.board).cpu.pc ∈ s.breaks
      then remark .breakpoint (steps k s.board) else "") (steps k s.board) := by
    intro content
    simp only [respond, runInstructions_of_stop h.fetching h.first h.brisk hn]
    split <;> rfl
  have hcase := halts_at_break_iff h.fetching h.first
  refine ⟨hgo, hrun, fun hno content => ?_, ?_⟩
  · rw [hgo, hrun]
    rw [← hcase] at hno
    rcases stops_iff.mp h.first.reached with hp | ⟨hp, hpc⟩
    · have hhalt := halted_iff.mpr hp
      rw [if_pos hhalt, if_neg fun hpc => hno ⟨hhalt, hpc⟩]
    · rw [if_neg (ne_true_of_eq_false (halted_of_fetch hp)), if_pos hpc]
  · rintro hyes content
    obtain ⟨hhalt, hpc⟩ := hcase.mpr hyes
    obtain ⟨-, rfl, -⟩ := hyes
    exact ⟨by rw [hgo, if_pos hhalt], by rw [hrun, if_pos hpc]⟩

/-- A loop of two instructions that is about to begin, with a breakpoint at its first one. -/
def looping : Session where
  board := (ofConfig ⟨1843200, 115200, 10⟩).after [.loadProgram [65, 255], .pulseRunStart, .step 1]
  breaks := [0]

/-- Both commands pass the breakpoint once, and come back to it. -/
theorem compared_of_stop_looping :
    (Stops [0] looping.board 13 ∧ instructions looping.board 13 ≤ 2) ∧ Compared looping 13 2 ∧
      (steps 13 looping.board).cpu.pc = 0 ∧ (steps 13 looping.board).cpu.cell = 1 := by
  have hgo : ∀ j < 13, 1 ≤ j → stops [0] (steps j looping.board) = false := by decide +kernel
  have hover : (steps 7 looping.board).atBoundary = true ∧ (steps 13 looping.board).atBoundary = true := by
    decide +kernel
  have hstop : Stops [0] looping.board 13 := by
    refine ⟨by decide +kernel, ⟨by decide, by decide +kernel, fun j h1 hj => hgo j hj h1⟩, by decide,
      fun i hi _ => ?_⟩
    rcases Nat.lt_or_ge i 7 with h7 | h7
    · exact ⟨7, h7, by rw [instructionBudget]; omega, hover.1⟩
    · exact ⟨13, hi, by rw [instructionBudget]; omega, hover.2⟩
  have hn : instructions looping.board 13 ≤ 2 := by decide +kernel
  exact ⟨⟨hstop, hn⟩, compared_of_stop looping hstop hn, by decide +kernel⟩

/-- A program of the halt word alone is about to begin, with a breakpoint at it. -/
def halting : Session :=
  let first : Session := { board := .ofConfig ⟨1843200, 115200, 10⟩ }
  let loaded := (first.respond (.load .hex []) (some (Text.utf8 "00"))).1
  (((loaded.respond .start none).1).respond (.addBreak 0) none).1

/-- Both commands halt after three steps. One says nothing, the other announces a breakpoint. -/
theorem halt_announced :
    (halting.Reachable ∧ halting.breaks = [0] ∧ Stops halting.breaks halting.board 3 ∧
        instructions halting.board 3 = 1 ∧ (steps 3 halting.board).halted = true) ∧
      (halting.respond .go none).1 = (halting.respond (.runInstructions 1) none).1 ∧
      (halting.respond .go none).2 = .print (Report.registers (steps 3 halting.board)) ∧
      (halting.respond (.runInstructions 1) none).2 =
        .print ("* Breakpoint hit at PC=00\n" ++ Report.registers (steps 3 halting.board)) ∧
      (halting.respond .go none).2 ≠ (halting.respond (.runInstructions 1) none).2 := by
  have hreachable : halting.Reachable := by
    have hfirst : Reachable { board := .ofConfig ⟨1843200, 115200, 10⟩ } :=
      .start (show Session.start ⟨⟨1843200, 115200, 10⟩, []⟩ none = (_, some _) from rfl)
    exact ((hfirst.respond _ _).respond _ _).respond _ _
  have hgo : ∀ j < 3, 1 ≤ j → stops halting.breaks (steps j halting.board) = false := by decide +kernel
  have hover : (steps 3 halting.board).atBoundary = true := by decide +kernel
  have hstop : Stops halting.breaks halting.board 3 :=
    ⟨by decide +kernel, ⟨by decide, by decide +kernel, fun j h1 hj => hgo j hj h1⟩, by decide,
      fun i hi _ => ⟨3, hi, by rw [instructionBudget]; omega, hover⟩⟩
  exact ⟨⟨hreachable, by decide +kernel, hstop, by decide +kernel, by decide +kernel⟩, by decide +kernel,
    by decide +kernel, by decide +kernel, by decide +kernel⟩

end

end Session

end BrainfuckBoard
