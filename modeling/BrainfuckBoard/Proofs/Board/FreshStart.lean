import BrainfuckBoard.Proofs.Board.Handling

/- A fresh start. The configuration, the pins and the way the terminal is set up outlive
   a reset of the board and of the terminal (`Settings`), and nothing else does: a board
   becomes a new one with these settings, whatever has been done to it
   (`Tuned.reset_eq`). So two boards with the same settings cannot be told apart after it,
   whatever is done to both of them then (`histories_of_settings`). -/
namespace BrainfuckBoard.Board

structure Settings where
  config : Config
  pins : Pins
  attached : Bool
  period : UInt32
  gap : UInt32
deriving DecidableEq, Repr

def settings (b : Board) : Settings where
  config := b.config
  pins := b.pins
  attached := b.attached
  period := b.terminal.period
  gap := b.terminal.gap

/-- A new board with the given settings, but for the period: it is that of the rates. No run
    is about to start. -/
def fresh (s : Settings) : Board :=
  let b := ofConfig s.config
  { b with
    pins := { s.pins with runStart := false }
    attached := s.attached
    terminal := { b.terminal with gap := s.gap } }

/-- All that can be seen while operations are carried out: the result of each, and the
    board after it. A step is an operation too. -/
def history (b : Board) : List Operation → List (Option Bool × Board)
  | [] => []
  | op :: ops => b.perform op :: (b.perform op).2.history ops

/-! ## What the configuration decides -/

/-- The period of the terminal is not set by hand. -/
def Operation.keepsPeriod : Operation → Bool
  | .setPeriod _ => false
  | _ => true

/-- The divisors and the limit of the timeline are those of the configuration, and a bit
    of the terminal takes two steps at least. -/
structure Tuned (b : Board) : Prop where
  divisors : b.chip.baud.reset = .ofRates b.config.clockHz b.config.baud
  limit : b.timeline.limit = b.config.traceLimit
  period : 2 ≤ b.terminal.period.toNat

section
variable {a b b' : Board} {op : Operation}

theorem reset_nextChip (b : Board) (inReset : Bool) :
    (b.nextChip inReset).baud.reset = b.chip.baud.reset := by
  cases inReset <;> rfl

theorem limit_record (t : Timeline) (frame : TraceFrame) : (t.record frame).limit = t.limit := by
  unfold Timeline.record
  split
  · rfl
  · split <;> rfl

theorem period_nextTerminal (b : Board) (tx : Bool) :
    (b.nextTerminal tx).period = b.terminal.period := by
  unfold nextTerminal
  split <;> rfl

theorem max_two (steps : UInt32) : (max 2 steps).toNat = max 2 steps.toNat := by
  rw [show max 2 steps = if 2 ≤ steps then steps else 2 from rfl]
  split
  · next h => exact (Nat.max_eq_right (UInt32.le_iff_toNat_le.mp h)).symm
  · next h => exact (Nat.max_eq_left (Nat.le_of_not_le fun h' => h (UInt32.le_iff_toNat_le.mpr h'))).symm

theorem Tuned.period_pos (h : b.Tuned) : 0 < b.terminal.period.toNat :=
  Nat.lt_of_lt_of_le (by decide) h.period

theorem Tuned.step (h : b.Tuned) : b.step.Tuned where
  divisors := (reset_nextChip b _).trans h.divisors
  limit := (limit_record _ _).trans h.limit
  period := by
    rw [show b.step.terminal = b.nextTerminal _ from rfl, period_nextTerminal]
    exact h.period

theorem tuned_configure (b : Board) (config : Config) : (b.configure config).Tuned where
  divisors := rfl
  limit := rfl
  period := by
    rw [show (b.configure config).terminal.period = max 2 _ from rfl, max_two]
    exact Nat.le_max_left 2 _

theorem Tuned.outside (h : b.Tuned) (hb : Outside b b') : b'.Tuned := by
  obtain ⟨pins, attached, terminal, core, rfl, hterminal, -⟩ := hb
  refine ⟨h.divisors, h.limit, ?_⟩
  cases hterminal with
  | period steps =>
    rw [show (b.terminal.setPeriod steps).period = max 2 steps from rfl, max_two]
    exact Nat.le_max_left 2 _
  | _ => exact h.period

theorem Tuned.reset (h : b.Tuned) : b.reset.Tuned := ⟨h.divisors, rfl, h.period⟩

theorem Reachable.tuned (h : b.Reachable) : b.Tuned :=
  h.holds tuned_configure (fun _ => Tuned.reset) (fun _ => Tuned.step) (fun _ _ hb ht => ht.outside hb)

theorem Operation.period_kept (h : op.live = true) (hp : op.keepsPeriod = true) :
    (b.perform op).2.config = b.config ∧ (b.perform op).2.terminal.period = b.terminal.period := by
  cases op with
  | setPeriod steps => exact absurd hp Bool.false_ne_true
  | loadProgram words => simp only [perform, done, Board.loadProgram, and_self]
  | loadTape bytes => simp only [perform, done, Board.loadTape, and_self]
  | pulseRunStart | setPin _ _ | attach _ | send _ | sendFrame _ _ | resetTerminal | setGap _ =>
    exact ⟨rfl, rfl⟩
  | _ => exact absurd h Bool.false_ne_true

/-- Then it is the one of the rates. -/
theorem period_of_rates (config : Config) {ops : List Operation} (h : ∀ op ∈ ops, op.keepsPeriod = true) :
    let b := (ofConfig config).after ops
    b.terminal.period = (ofConfig b.config).terminal.period := by
  apply after_keeps (P := fun b => b.terminal.period = (ofConfig b.config).terminal.period)
    Operation.keepsPeriod _ _ (fun _ => rfl) (fun _ => rfl) rfl h
  · intro b hb
    rw [show b.step.terminal = b.nextTerminal _ from rfl, period_nextTerminal]
    exact hb
  · intro b op hop hp hb
    rcases op.live_or_reset hop with hlive | rfl | ⟨config, rfl⟩
    · obtain ⟨hconfig, hperiod⟩ := op.period_kept (b := b) hlive hp
      rw [hconfig, hperiod]
      exact hb
    · exact hb
    · rfl

/-! ## Two boards with the same settings -/

/-- Everything else is forgotten. -/
theorem Tuned.reset_eq (h : b.Tuned) :
    b.reset.resetTerminal = ((fresh b.settings).perform (.setPeriod b.terminal.period)).2 := by
  have hbaud : b.chip.baud.reset = (ofConfig b.config).chip.baud := h.divisors
  have hperiod : max 2 b.terminal.period = b.terminal.period := by
    apply UInt32.toNat_inj.mp
    rw [max_two]
    exact Nat.max_eq_right h.period
  simp only [Board.reset, resetTerminal, Chip.reset, hbaud, fresh, perform, done, Terminal.setPeriod, hperiod]
  rfl

/-- The period of a new board is that of its rates already. -/
theorem Tuned.reset_eq_fresh (h : b.Tuned) (hp : b.terminal.period = (ofConfig b.config).terminal.period) :
    b.reset.resetTerminal = fresh b.settings := by
  have hbaud : b.chip.baud.reset = (ofConfig b.config).chip.baud := h.divisors
  simp only [Board.reset, resetTerminal, Chip.reset, hbaud, fresh, Terminal.reset, settings, hp]
  rfl

/-- Whatever both boards have been through. -/
theorem histories_of_settings (ha : a.Reachable) (hb : b.Reachable) (h : a.settings = b.settings)
    (ops : List Operation) :
    a.reset.resetTerminal.history ops = b.reset.resetTerminal.history ops ∧
    a.reset.resetTerminal.history ops =
      ((fresh a.settings).perform (.setPeriod a.terminal.period)).2.history ops ∧
    (a.terminal.period = (ofConfig a.config).terminal.period →
      a.reset.resetTerminal.history ops = (fresh a.settings).history ops) := by
  have hperiod : a.terminal.period = b.terminal.period := congrArg Settings.period h
  refine ⟨?_, ?_, ?_⟩
  · rw [ha.tuned.reset_eq, hb.tuned.reset_eq, h, hperiod]
  · rw [ha.tuned.reset_eq]
  · intro hp
    rw [ha.tuned.reset_eq_fresh hp]

/-- A board that is stopped in the middle of a frame, and one that has run at another rate. -/
theorem histories_of_settings_stopped :
    let a := (ofConfig {}).after [.loadTape [7], .send [65, 66], .pulseRunStart, .step 300,
      .setPin .reset false, .setPin .rx true]
    let b := (ofConfig ⟨1843200, 115200, 10⟩).after [.setPin .upload true, .sendFrame 1 false, .step 50,
      .setPin .upload false, .configure {}, .setPin .reset false, .setPin .rx true]
    let ops : List Operation := [.setPin .reset true, .send [104, 0], .pulseRunStart, .step 1000, .settle 500]
    (a.Reachable ∧ b.Reachable ∧ a.settings = b.settings ∧
      a.terminal.period = (ofConfig a.config).terminal.period) ∧
    a ≠ b ∧ a.reset.resetTerminal.history ops = b.reset.resetTerminal.history ops ∧
      a.reset.resetTerminal.history ops = (fresh a.settings).history ops := by
  intro a b ops
  have ha : a.Reachable := (Reachable.start _).after _
  have hb : b.Reachable := (Reachable.start _).after _
  have h : a.settings = b.settings := by decide +kernel
  have hp : a.terminal.period = (ofConfig a.config).terminal.period := period_of_rates _ (by decide)
  have hne : a.cycles ≠ b.cycles := by decide +kernel
  obtain ⟨htwo, -, hfresh⟩ := histories_of_settings ha hb h ops
  exact ⟨⟨ha, hb, h, hp⟩, fun heq => hne (congrArg cycles heq), htwo, hfresh hp⟩

end

end BrainfuckBoard.Board
