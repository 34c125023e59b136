import BrainfuckBoard.Board.Operation
import BrainfuckBoard.Proofs.Board.Wire

/- A board to which things are done while it runs. An operation is made of clock steps
   and of operations that take none, so what both of these keep, every operation keeps
   (`perform_keeps`), and it holds of all boards that operations lead to
   (`Reachable.keeps`). `course b before n` is the board after `n` steps, with operations
   carried out before each of them. An operation between two steps that is no reset
   leaves the serial parts of the chip alone (`Operation.kept`); one that keeps the
   terminal on the wire does nothing to the wire but queue frames
   (`Operation.queues`). -/
namespace BrainfuckBoard.Board

/-! ## Operations without a step -/

namespace Operation

/-- The clock does not move. -/
def stepless : Operation → Bool
  | .step _ | .stepInstruction _ | .runUntilHalt _ | .drain _ | .upload _ _ | .waitOutput _ _
  | .settle _ => false
  | _ => true

/-- The clock does not move, and nothing is reset but the terminal. -/
def between : Operation → Bool
  | .reset | .configure _ => false
  | .setPin pin level => pin != .reset || level
  | op => op.stepless

/-- The clock does not move, nothing is reset, and the terminal stays on the wire at the
    rate it has. -/
def onWire : Operation → Bool
  | .attach on => on
  | .resetTerminal | .setPeriod _ => false
  | op => op.between

/-- The frames that the operation queues at the terminal. -/
def frames (t : Terminal) : Operation → List Frame
  | .send bytes => bytes.map fun byte => t.frame byte true
  | .sendFrame byte stop => [t.frame byte stop]
  | _ => []

end Operation

section
variable {P : Board → Prop} {b : Board}

theorem steps_keep (hstep : ∀ b, P b → P b.step) : ∀ {n : Nat} {b : Board}, P b → P (steps n b)
  | 0, _, h => h
  | n + 1, b, h => steps_keep (n := n) hstep (hstep b h)

theorem stepWhile_keeps {waiting : Board → Bool} (hstep : ∀ b, P b → P b.step) :
    ∀ {budget : Nat} {b : Board}, P b → P (stepWhile waiting budget b)
  | 0, _, h => h
  | budget + 1, b, h => by
    unfold stepWhile
    split
    · exact stepWhile_keeps hstep (hstep b h)
    · exact h

theorem stepToBoundary_keeps (hstep : ∀ b, P b → P b.step) :
    ∀ {more : Nat} {b : Board}, P b → P (stepToBoundary more b).2
  | 0, b, h => hstep b h
  | more + 1, b, h => by
    dsimp only [stepToBoundary]
    split
    · exact hstep b h
    · exact stepToBoundary_keeps hstep (hstep b h)

theorem stepInstruction_keeps (hstep : ∀ b, P b → P b.step) {budget : Nat} (h : P b) :
    P (b.stepInstruction budget).2 := by
  unfold stepInstruction
  split
  · exact h
  · exact hstep b h
  · exact stepToBoundary_keeps hstep h

theorem drain_keeps (hstep : ∀ b, P b → P b.step) :
    ∀ {budget : Nat} {b : Board}, P b → P (drain budget b).2
  | 0, _, h => h
  | budget + 1, b, h => by
    unfold drain
    split
    · exact h
    · exact drain_keeps hstep (hstep b h)

variable (allowed : Operation → Bool) (hstep : ∀ b, P b → P b.step)
  (hop : ∀ b (op : Operation), op.stepless = true → allowed op = true → P b → P (b.perform op).2)
  (hmode : ∀ on, allowed (.setPin .upload on) = true) (hsend : ∀ words, allowed (.send words) = true)
include hstep hop hmode hsend

theorem upload_keeps {words : Bytes} {budget : Nat} (h : P b) : P (b.upload words budget).2 := by
  unfold Board.upload
  split
  · exact h
  · have hset : P (b.setUpload true) := hop b (.setPin .upload true) rfl (hmode true) h
    have hsent : P ((b.setUpload true).send words) := hop _ (.send words) rfl (hsend words) hset
    have hdrained : P (drain budget ((b.setUpload true).send words)).2 := drain_keeps hstep hsent
    exact hstep _ (hop _ (.setPin .upload false) rfl (hmode false) hdrained)

/-- What a step keeps and what an operation without one keeps, any operation keeps. An upload
    uses two of them. -/
theorem perform_keeps (h : P b) (op : Operation) (ha : allowed op = true) : P (b.perform op).2 := by
  cases op with
  | step n => exact steps_keep hstep h
  | stepInstruction budget => exact stepInstruction_keeps hstep h
  | runUntilHalt budget => exact stepWhile_keeps hstep h
  | drain budget => exact drain_keeps hstep h
  | upload words budget => exact upload_keeps allowed hstep hop hmode hsend h
  | waitOutput n budget => exact stepWhile_keeps hstep h
  | settle budget => exact stepWhile_keeps hstep h
  | _ => exact hop b _ rfl ha h

end

/-- The boards that there are, from the first one of a configuration on. -/
inductive Reachable : Board → Prop
  | start (config : Config) : Reachable (.ofConfig config)
  | perform {b : Board} (h : Reachable b) (op : Operation) : Reachable (b.perform op).2

theorem Reachable.keeps {P : Board → Prop} (hstart : ∀ config, P (.ofConfig config))
    (hstep : ∀ b, P b → P b.step)
    (hop : ∀ b (op : Operation), op.stepless = true → P b → P (b.perform op).2)
    {b : Board} (h : Reachable b) : P b := by
  induction h with
  | start config => exact hstart config
  | perform _ op ih =>
    exact perform_keeps (fun _ => true) hstep (fun b op hop' _ => hop b op hop')
      (fun _ => rfl) (fun _ => rfl) ih op rfl

/-! ## Steps with operations before them -/

/-- The board after some operations. -/
def after (b : Board) (ops : List Operation) : Board := ops.foldl (fun b op => (b.perform op).2) b

theorem after_keeps {P : Board → Prop} (allowed : Operation → Bool) (hstep : ∀ b, P b → P b.step)
    (hop : ∀ b (op : Operation), op.stepless = true → allowed op = true → P b → P (b.perform op).2)
    (hmode : ∀ on, allowed (.setPin .upload on) = true) (hsend : ∀ words, allowed (.send words) = true)
    {b : Board} (h : P b) {ops : List Operation} (ha : ∀ op ∈ ops, allowed op = true) : P (b.after ops) := by
  induction ops generalizing b with
  | nil => exact h
  | cons op ops ih =>
    obtain ⟨hfirst, hrest⟩ := List.forall_mem_cons.mp ha
    exact ih (perform_keeps allowed hstep hop hmode hsend h op hfirst) hrest

theorem Reachable.after {b : Board} (h : Reachable b) (ops : List Operation) : (b.after ops).Reachable := by
  induction ops generalizing b with
  | nil => exact h
  | cons op ops ih => exact ih (h.perform op)

/-- The board after `n` steps, if the operations `before k` come before step `k`. -/
def course (b : Board) (before : Nat → List Operation) : Nat → Board
  | 0 => b
  | n + 1 => ((b.course before n).after (before n)).step

/-- The board that step `n` begins with. -/
def opening (b : Board) (before : Nat → List Operation) (n : Nat) : Board :=
  (b.course before n).after (before n)

/-- The frames that a list of operations queues. -/
def queuing (b : Board) : List Operation → List Frame
  | [] => []
  | op :: ops => op.frames b.terminal ++ (b.perform op).2.queuing ops

/-- The frames that have been queued before step `n`. -/
def queued (b : Board) (before : Nat → List Operation) (n : Nat) : List Frame :=
  (List.range n).flatMap fun k => (b.course before k).queuing (before k)

section
variable {b b' b'' : Board} {op : Operation} {ops : List Operation} {before : Nat → List Operation}
  {frames : List Frame} {n k : Nat}

theorem course_succ : b.course before (n + 1) = (b.opening before n).step := rfl

theorem queued_succ :
    b.queued before (n + 1) = b.queued before n ++ (b.course before n).queuing (before n) := by
  simp [queued, List.range_succ]

/-! ## What an operation between two steps leaves alone -/

/-- The board is not in reset, and will not be. -/
structure Running (b : Board) : Prop where
  resetPin : b.pins.reset = true
  released : b.resetLine = .released

theorem Running.step_chip (h : b.Running) : b.step.chip = b.chip.clock b.drivenPins := by
  simp only [step, nextChip, h.resetPin, h.released]
  rfl

theorem driven_reset : b.drivenPins.reset = b.pins.reset := by
  unfold drivenPins
  split <;> rfl

theorem Running.step (h : b.Running) : b.step.Running where
  resetPin := driven_reset.trans h.resetPin
  released := by simp only [Board.step, h.resetPin, h.released]; rfl

/-- The serial parts of the chip are as they were, and there is no reset. -/
structure Kept (b b' : Board) : Prop where
  running : b.Running → b'.Running
  baud : b'.chip.baud = b.chip.baud
  receiver : b'.chip.receiver = b.chip.receiver
  transmitter : b'.chip.transmitter = b.chip.transmitter

/-- Nothing else has been done to the wire, in either direction, but to queue frames. -/
structure Queues (b b' : Board) (frames : List Frame) : Prop extends Kept b b' where
  attached : b.attached = true → b'.attached = true
  period : b'.terminal.period = b.terminal.period
  listener : b'.terminal.listener = b.terminal.listener
  sender : b'.terminal.sender = b.terminal.sender.enqueue frames

theorem Queues.awake (h : Queues b b' frames) (ha : b.Awake) : b'.Awake :=
  have hrunning := h.running ⟨ha.resetPin, ha.released⟩
  ⟨h.attached ha.attached, hrunning.resetPin, hrunning.released⟩

theorem Queues.sameWire (h : Queues b b' []) : SameWire b b' where
  awake := h.awake
  baud := h.baud
  receiver := h.receiver
  period := h.period
  sender := h.sender.trans (Sender.enqueue_nil _)

theorem queues_nothing (h : Kept b b') (hattached : b.attached = true → b'.attached = true)
    (hperiod : b'.terminal.period = b.terminal.period)
    (hlistener : b'.terminal.listener = b.terminal.listener)
    (hsender : b'.terminal.sender = b.terminal.sender) : Queues b b' [] :=
  ⟨h, hattached, hperiod, hlistener, by rw [hsender, Sender.enqueue_nil]⟩

/-- Memories that are filled from outside are part of the core. -/
theorem perform_loadProgram (b : Board) (words : Bytes) :
    ∃ core, (b.perform (.loadProgram words)).2 = { b with chip := { b.chip with core } } :=
  ⟨_, rfl⟩

theorem perform_loadTape (b : Board) (bytes : Bytes) :
    ∃ core, (b.perform (.loadTape bytes)).2 = { b with chip := { b.chip with core } } :=
  ⟨_, rfl⟩

theorem Operation.kept (h : op.between = true) : Kept b (b.perform op).2 := by
  cases op with
  | setPin pin level =>
    cases pin with
    | reset =>
      obtain rfl : level = true := h
      exact ⟨fun hb => ⟨rfl, hb.released⟩, rfl, rfl, rfl⟩
    | _ => exact ⟨fun hb => ⟨hb.resetPin, hb.released⟩, rfl, rfl, rfl⟩
  | loadProgram words =>
    obtain ⟨core, hcore⟩ := perform_loadProgram b words
    rw [hcore]
    exact ⟨fun hb => ⟨hb.resetPin, hb.released⟩, rfl, rfl, rfl⟩
  | loadTape bytes =>
    obtain ⟨core, hcore⟩ := perform_loadTape b bytes
    rw [hcore]
    exact ⟨fun hb => ⟨hb.resetPin, hb.released⟩, rfl, rfl, rfl⟩
  | pulseRunStart | send _ | sendFrame _ _ | attach _ | resetTerminal | setPeriod _ | setGap _ =>
    exact ⟨fun hb => ⟨hb.resetPin, hb.released⟩, rfl, rfl, rfl⟩
  | _ => exact absurd h Bool.false_ne_true

theorem Operation.between_of_onWire (h : op.onWire = true) : op.between = true := by
  cases op with
  | attach on => rfl
  | resetTerminal | setPeriod steps => exact absurd h Bool.false_ne_true
  | _ => exact h

theorem Operation.queues (h : op.onWire = true) : Queues b (b.perform op).2 (op.frames b.terminal) := by
  have hkept : Kept b (b.perform op).2 := op.kept (between_of_onWire h)
  cases op with
  | send bytes => exact ⟨hkept, id, rfl, rfl, rfl⟩
  | sendFrame byte stop => exact ⟨hkept, id, rfl, rfl, rfl⟩
  | attach on => exact queues_nothing hkept (fun _ => h) rfl rfl rfl
  | setPin pin level => exact queues_nothing hkept id rfl rfl rfl
  | loadProgram words =>
    obtain ⟨core, hcore⟩ := perform_loadProgram b words
    rw [hcore] at hkept ⊢
    exact queues_nothing hkept id rfl rfl rfl
  | loadTape bytes =>
    obtain ⟨core, hcore⟩ := perform_loadTape b bytes
    rw [hcore] at hkept ⊢
    exact queues_nothing hkept id rfl rfl rfl
  | pulseRunStart | setGap _ => exact queues_nothing hkept id rfl rfl rfl
  | _ => exact absurd h Bool.false_ne_true

theorem Kept.trans (h : Kept b b') (h' : Kept b' b'') : Kept b b'' where
  running := h'.running ∘ h.running
  baud := h'.baud.trans h.baud
  receiver := h'.receiver.trans h.receiver
  transmitter := h'.transmitter.trans h.transmitter

theorem kept_after : ∀ {ops : List Operation} {b : Board}, (∀ op ∈ ops, op.between = true) →
    Kept b (b.after ops)
  | [], b, _ => ⟨id, rfl, rfl, rfl⟩
  | op :: ops, b, h => by
    obtain ⟨hop, hops⟩ := List.forall_mem_cons.mp h
    have hrest : Kept (b.perform op).2 ((b.perform op).2.after ops) := kept_after hops
    exact (op.kept hop).trans hrest

theorem queues_after : ∀ {ops : List Operation} {b : Board}, (∀ op ∈ ops, op.onWire = true) →
    Queues b (b.after ops) (b.queuing ops)
  | [], b, _ => queues_nothing ⟨id, rfl, rfl, rfl⟩ id rfl rfl rfl
  | op :: ops, b, h => by
    obtain ⟨hop, hops⟩ := List.forall_mem_cons.mp h
    have hfirst : Queues b (b.perform op).2 (op.frames b.terminal) := op.queues hop
    have hrest : Queues (b.perform op).2 ((b.perform op).2.after ops)
        ((b.perform op).2.queuing ops) := queues_after hops
    refine ⟨hfirst.toKept.trans hrest.toKept, hrest.attached ∘ hfirst.attached,
      hrest.period.trans hfirst.period, hrest.listener.trans hfirst.listener, ?_⟩
    calc (b.after (op :: ops)).terminal.sender
      _ = ((b.terminal.sender.enqueue (op.frames b.terminal)).enqueue
          ((b.perform op).2.queuing ops)) := by
        rw [← hfirst.sender]
        exact hrest.sender
      _ = b.terminal.sender.enqueue (b.queuing (op :: ops)) := by
        simp only [Sender.enqueue, queuing, List.append_assoc]

/-! ## Steps before which nothing is queued -/

theorem queued_eq (hk : n ≤ k) (h : ∀ j, n ≤ j → j < k → (b.course before j).queuing (before j) = []) :
    b.queued before k = b.queued before n := by
  induction hk with
  | refl => rfl
  | @step k hk ih =>
    rw [queued_succ, h k hk (Nat.lt_succ_self k), List.append_nil]
    exact ih fun j hj hlt => h j hj (Nat.lt_succ_of_lt hlt)

/-- Before step `n` and all that come then. -/
def QueuesNoMore (b : Board) (before : Nat → List Operation) (n : Nat) : Prop :=
  ∀ k, n ≤ k → (b.course before k).queuing (before k) = []

theorem QueuesNoMore.queued (h : b.QueuesNoMore before n) (hk : n ≤ k) :
    b.queued before k = b.queued before n :=
  queued_eq hk fun j hj _ => h j hj

theorem QueuesNoMore.undisturbed (h : b.QueuesNoMore before n) (hops : ∀ k, ∀ op ∈ before k, op.onWire = true) :
    Undisturbed fun k => b.course before (n + k) := by
  intro k
  have hqueues := queues_after (b := b.course before (n + k)) (hops (n + k))
  rw [h (n + k) (Nat.le_add_right n k)] at hqueues
  exact ⟨b.opening before (n + k), hqueues.sameWire, rfl⟩

end

end BrainfuckBoard.Board
