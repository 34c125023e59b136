import BrainfuckBoard.Proofs.Board.Arrivals
import BrainfuckBoard.Proofs.Board.Deposits
import BrainfuckBoard.Proofs.Board.FreshStart
import BrainfuckBoard.Proofs.Board.Upload

/- Which bytes of an upload the processor is offered. None while upload mode lasts, and none
   after an upload that is done: the line has been high for two steps when the terminal has sent
   everything, at any rates (`EndsHigh`), and so the receiver stays at rest (`Quiet.step`). An
   upload that is given up leaves upload mode with frames on the wire and in the queue. What the
   receiver has not shown by then goes to the program, in order and to the last byte
   (`apportioned_of_upload`, `offered_of_abandoned`). -/
namespace BrainfuckBoard

/-- A good frame ends with two high levels. -/
theorem Frame.high_suffix {f : Frame} {period : Nat} (hstop : f.stop = true) (hp : 2 ≤ period) :
    [true, true] <:+ f.wave period := by
  have hdrop : (f.wave period).drop (9 * period) = _ :=
    Frame.drop_wave_stop (by omega) (Nat.le_refl _) (by omega)
  rw [hstop, List.replicate_append_replicate] at hdrop
  have hhigh : [true, true] <:+ (f.wave period).drop (9 * period) := by
    rw [hdrop]
    obtain ⟨k, hk⟩ : ∃ k, 10 * period - 9 * period + f.gap * period = k + 2 :=
      ⟨10 * period - 9 * period + f.gap * period - 2, by omega⟩
    rw [hk, ← List.replicate_append_replicate]
    exact List.suffix_append _ _
  exact hhigh.trans (List.drop_suffix _ _)

theorem Frame.high_suffix_append {levels : List Bool} {period : Nat} (hp : 2 ≤ period)
    (h : [true, true] <:+ levels) {frames : List Frame} (hgood : ∀ f ∈ frames, f.stop = true) :
    [true, true] <:+ levels ++ frames.flatMap (Frame.wave period) := by
  induction frames generalizing levels with
  | nil => rwa [List.flatMap_nil, List.append_nil]
  | cons f frames ih =>
    obtain ⟨hstop, hrest⟩ := List.forall_mem_cons.mp hgood
    rw [List.flatMap_cons, ← List.append_assoc]
    exact ih ((Frame.high_suffix hstop hp).trans (List.suffix_append _ _)) hrest

namespace Board

/-- Nothing is queued, and the upload pin is left alone. -/
def Operation.queuesNothing : Operation → Bool
  | .send _ | .sendFrame _ _ | .setPin .upload _ => false
  | op => op.onWire

/-- The byte that the processor is offered in this step. -/
def offered? (b : Board) : Option UInt8 := (b.chip.coreInputs b.drivenPins).received

/-- The bytes that the processor is offered in the first `n` steps. -/
def offered (b : Board) (before : Nat → List Operation) (n : Nat) : Bytes :=
  (List.range n).flatMap fun k => (b.opening before k).offered?.toList

section
variable {b b' : Board} {D n : Nat} {due frames : List Frame} {ops : List Operation}
  {before : Nat → List Operation} {words : Bytes} {budget : Nat}

/-! ## What the processor is offered -/

theorem offered_in_upload (h : b.pins.upload = true) : b.offered? = none := by
  simp [offered?, Chip.coreInputs, Chip.route, Route.select, Route.cpuByte?, driven_upload, h]

theorem offered_outside_upload (h : b.pins.upload = false) : b.offered? = b.chip.receiver.byte? := by
  simp [offered?, Chip.coreInputs, Chip.route, Route.select, Route.cpuByte?, Receiver.byte?,
    driven_upload, h]

theorem offered_of_not_valid (h : b.chip.receiver.valid = false) : b.offered? = none := by
  simp [offered?, Chip.coreInputs, Chip.route, Route.select, Route.cpuByte?, h]

theorem Operation.spares_of_queuesNothing {op : Operation} (h : op.queuesNothing = true) :
    op.onWire = true ∧ (∀ t, op.frames t = []) ∧ ∀ on, op ≠ .setPin .upload on := by
  cases op with
  | setPin pin level =>
    cases pin with
    | upload => exact absurd h Bool.false_ne_true
    | _ => exact ⟨h, fun _ => rfl, nofun⟩
  | send _ | sendFrame _ _ => exact absurd h Bool.false_ne_true
  | _ => exact ⟨h, fun _ => rfl, nofun⟩

theorem queues_nothing_after (h : ∀ op ∈ ops, op.queuesNothing = true) : Queues b (b.after ops) [] := by
  have hqueuing : ∀ {ops : List Operation} {b : Board}, (∀ op ∈ ops, op.queuesNothing = true) →
      b.queuing ops = [] := by
    intro ops
    induction ops with
    | nil => exact fun _ => rfl
    | cons op ops ih =>
      intro b h
      obtain ⟨hop, hops⟩ := List.forall_mem_cons.mp h
      rw [queuing, (Operation.spares_of_queuesNothing hop).2.1, ih hops]
      rfl
  have hqueues : Queues b (b.after ops) (b.queuing ops) :=
    queues_after fun op hop => (Operation.spares_of_queuesNothing (h op hop)).1
  rwa [hqueuing h] at hqueues

/-! ## A wire that ends high -/

/-- The last two levels that the receiver has yet to see are high, whatever comes before them. -/
structure EndsHigh (b : Board) : Prop where
  awake : b.Awake
  period : 2 ≤ b.terminal.period.toNat
  placed : b.terminal.sender.Placed b.terminal.period.toNat
  coherent : b.chip.receiver.Coherent
  high : [true, true] <:+ b.chip.receiver.second :: b.chip.receiver.first ::
    b.terminal.sender.ahead b.terminal.period.toNat

theorem EndsHigh.step (h : b.EndsHigh) : b.step.EndsHigh := by
  have hperiod : b.step.terminal.period = b.terminal.period := by
    rw [h.awake.step_terminal]
    rfl
  obtain ⟨hplaced, hahead⟩ := Sender.ahead_advance h.placed rfl
  obtain ⟨hfirst, hsecond⟩ :=
    @Receiver.clock_registers b.chip.receiver b.terminal.line b.chip.baud.oversampleTick
  refine ⟨h.awake.step, by rw [hperiod]; exact h.period, ?_, ?_, ?_⟩
  · rw [hperiod, h.awake.step_terminal]
    exact hplaced
  · rw [h.awake.step_chip]
    exact h.coherent.clock
  · -- The levels move on by one, and at the end of what is sent the line stays high.
    have hlevels : b.step.chip.receiver.second :: b.step.chip.receiver.first ::
        b.step.terminal.sender.ahead b.step.terminal.period.toNat = b.chip.receiver.first ::
          b.terminal.line :: (b.terminal.sender.ahead b.terminal.period.toNat).tail := by
      rw [hperiod, h.awake.step_terminal, h.awake.step_chip, ← hahead]
      simp only [Chip.clock, hfirst, hsecond]
      rfl
    have hline : b.terminal.line = _ := Sender.line_eq h.placed
    have hhigh := h.high
    rw [hlevels, hline]
    cases ha : b.terminal.sender.ahead b.terminal.period.toNat with
    | nil =>
      rw [ha] at hhigh
      obtain ⟨-, hfirst⟩ : true = b.chip.receiver.second ∧ true = b.chip.receiver.first := by
        simpa using List.IsSuffix.eq_of_length hhigh rfl
      rw [← hfirst]
      exact List.suffix_refl _
    | cons level rest =>
      rw [ha] at hhigh
      rcases List.suffix_cons_iff.mp hhigh with heq | htail
      · exact absurd (congrArg List.length heq) (by simp)
      · exact htail

theorem EndsHigh.queues (h : b.EndsHigh) (hq : Queues b b' frames)
    (hgood : ∀ f ∈ frames, f.stop = true) : b'.EndsHigh := by
  have hrunning : b'.Running := hq.running ⟨h.awake.resetPin, h.awake.released⟩
  have hpos : 0 < b.terminal.period.toNat := Nat.lt_of_lt_of_le (by decide) h.period
  obtain ⟨hplaced, hahead⟩ := Sender.ahead_enqueue h.placed hpos frames
  refine ⟨⟨hq.attached h.awake.attached, hrunning.resetPin, hrunning.released⟩, ?_, ?_, ?_, ?_⟩
  · rw [hq.period]
    exact h.period
  · rw [hq.period, hq.sender]
    exact hplaced
  · rw [hq.receiver]
    exact h.coherent
  · rw [hq.period, hq.sender, hq.receiver, hahead]
    exact Frame.high_suffix_append h.period h.high hgood

theorem endsHigh_reset (h : b.Reachable) (hattached : b.attached = true) (hpin : b.pins.reset = true) :
    b.reset.resetTerminal.EndsHigh where
  awake := ⟨hattached, hpin, rfl⟩
  period := h.tuned.period
  placed := Sender.placed_empty _
  coherent := Receiver.coherent_initial
  high := List.suffix_refl _

/-! ## The wire at rest -/

/-- Everything has been sent and shown. -/
structure Quiet (b : Board) : Prop extends EndsHigh b where
  sender : b.terminal.sender.idle = true
  busy : b.chip.receiver.busy = false
  valid : b.chip.receiver.valid = false

theorem Quiet.second (h : b.Quiet) : b.chip.receiver.second = true := by
  have hhigh := h.high
  rw [(Sender.ahead_eq_nil_iff h.placed).mpr h.sender] at hhigh
  obtain ⟨hsecond, -⟩ : true = b.chip.receiver.second ∧ true = b.chip.receiver.first := by
    simpa using List.IsSuffix.eq_of_length hhigh rfl
  exact hsecond.symm

theorem Quiet.step (h : b.Quiet) : b.step.Quiet := by
  have hreceiver : b.step.chip.receiver = b.chip.receiver.shifted b.terminal.line := by
    rw [h.awake.step_chip]
    exact Receiver.clock_idle_high (h.coherent.idle h.busy) h.second
  refine ⟨h.toEndsHigh.step, ?_, ?_, ?_⟩
  · have hempty : b.terminal.sender.queue = [] := List.isEmpty_iff.mp h.sender
    rw [h.awake.step_terminal]
    simp [Terminal.sample, Terminal.advance, Sender.advance, Sender.idle, hempty]
  · rw [hreceiver]
    exact h.busy
  · rw [hreceiver]
    rfl

theorem Quiet.queues (h : b.Quiet) (hq : Queues b b' []) : b'.Quiet where
  toEndsHigh := h.toEndsHigh.queues hq nofun
  sender := by
    rw [hq.sender, Sender.enqueue_nil]
    exact h.sender
  busy := by rw [hq.receiver]; exact h.busy
  valid := by rw [hq.receiver]; exact h.valid

theorem Quiet.course (h : b.Quiet) (hops : ∀ k, ∀ op ∈ before k, op.queuesNothing = true) :
    ∀ n, (b.course before n).Quiet
  | 0 => h
  | n + 1 => ((Quiet.course h hops n).queues (queues_nothing_after (hops n))).step

theorem Quiet.offered (h : b.Quiet) (hops : ∀ k, ∀ op ∈ before k, op.queuesNothing = true) (n : Nat) :
    b.offered before n = [] := by
  apply List.flatMap_eq_nil_iff.mpr
  intro k _
  have hquiet : (b.opening before k).Quiet := (h.course hops k).queues (queues_nothing_after (hops k))
  rw [offered_of_not_valid hquiet.valid]
  rfl

/-! ## The two ends of upload mode -/

/-- The program is queued, and upload mode begins. -/
def entering (b : Board) (words : Bytes) : Board := (b.setUpload true).send words

/-- Upload mode has ended, and the last step of the upload begins. -/
def leaving (b : Board) (words : Bytes) (budget : Nat) : Board :=
  (drain budget (b.entering words)).2.setUpload false

/-- What the processor is offered from the end of upload mode on: in the last step of the upload and
    in `n` steps after it. -/
def offeredAfter (b : Board) (words : Bytes) (budget : Nat) (before : Nat → List Operation) (n : Nat) :
    Bytes :=
  (b.leaving words budget).offered?.toList ++ (b.upload words budget).2.offered before n

theorem upload_eq (hfit : words.length ≤ programDepth) :
    b.upload words budget = ((drain budget (b.entering words)).1, (b.leaving words budget).step) := by
  rw [Board.upload, if_neg (Nat.not_lt_of_le hfit)]
  rfl

theorem queues_entering (b : Board) (words : Bytes) :
    Queues b (b.entering words) (words.map fun byte => b.terminal.frame byte true) :=
  ⟨⟨fun hb => ⟨hb.resetPin, hb.released⟩, rfl, rfl, rfl⟩, id, rfl, rfl, rfl⟩

theorem queues_leaving (b : Board) : Queues b (b.setUpload false) [] :=
  (Operation.setPin .upload false).queues rfl

/-- The steps of the draining, and of the whole upload. -/
theorem leaving_eq (b : Board) (words : Bytes) (budget : Nat) : ∃ m, m ≤ budget ∧
    ((drain budget (b.entering words)).1 = false → m = budget) ∧
    b.leaving words budget = (steps m (b.entering words)).setUpload false := by
  have hreports := (ends_drain budget (b.entering words)).reports
  cases hdone : (drain budget (b.entering words)).1 with
  | true =>
    obtain ⟨m, hm, -, hsteps⟩ := hreports.least hdone
    exact ⟨m, Nat.le_of_lt hm, nofun, by rw [leaving, hsteps]⟩
  | false => exact ⟨budget, Nat.le_refl _, fun _ => rfl, by rw [leaving, hreports.spent hdone]⟩

/-- In upload mode the processor is offered nothing. -/
theorem offered_while_uploading (b : Board) (words : Bytes) (k : Nat) :
    (steps k (b.entering words)).offered? = none := by
  have hmode : (steps k (b.entering words)).pins.upload = true :=
    steps_keep (P := fun b => b.pins.upload = true) (fun _ hb => driven_upload.trans hb) rfl
  exact offered_in_upload hmode

theorem EndsHigh.quiet (h : b.EndsHigh) (hd : b.drained = true) : b.Quiet := by
  simp only [Board.drained, Bool.and_eq_true, Bool.not_eq_true'] at hd
  exact ⟨h, hd.1.1.1, hd.1.1.2, hd.1.2⟩

/-- An upload that is done leaves the wire at rest, at any rates. -/
theorem EndsHigh.quiet_leaving (h : b.EndsHigh) (hdone : (drain budget (b.entering words)).1 = true) :
    (b.leaving words budget).Quiet := by
  have hentering : (b.entering words).EndsHigh := h.queues (queues_entering b words) (stop_of_queued _ _)
  obtain ⟨m, hm, hdrained⟩ := drained_of_drain hdone
  have hsteps : (steps m (b.entering words)).EndsHigh :=
    steps_keep (P := EndsHigh) (fun _ hb => hb.step) hentering
  rw [hm] at hdrained
  rw [leaving, hm]
  exact (hsteps.quiet hdrained).queues (queues_leaving _)

/-! ## Rates that agree -/

theorem course_steps (b : Board) : ∀ n, b.course (fun _ => []) n = steps n b
  | 0 => rfl
  | n + 1 => by
    rw [steps_succ, ← course_steps b n]
    rfl

/-- What is shown comes off the front of what is due, and nothing else becomes due. -/
theorem Wired.flagged_course (h : Wired D b due) (hops : ∀ k, ∀ op ∈ before k, op.queuesNothing = true) :
    ∀ n, ∃ due', Wired D (b.course before n) due' ∧
      b.flagged before n ++ ((b.course before n).chip.receiver.byte?.toList ++
        due'.filterMap Frame.reading) = b.chip.receiver.byte?.toList ++ due.filterMap Frame.reading
  | 0 => ⟨due, h, rfl⟩
  | n + 1 => by
    obtain ⟨due', hn, hshown⟩ := Wired.flagged_course h hops n
    have hqueues : Queues (b.course before n) (b.opening before n) [] := queues_nothing_after (hops n)
    have hopening : Wired D (b.opening before n) (due' ++ []) := hn.queues hqueues nofun
    rw [List.append_nil] at hopening
    obtain ⟨due'', hnext, hbytes⟩ := hopening.step_bytes
    refine ⟨due'', hnext, ?_⟩
    rw [flagged_succ, course_succ, hbytes, hqueues.receiver, List.append_assoc]
    exact hshown

theorem offered_eq_flagged (hmode : b.pins.upload = false)
    (hops : ∀ k, ∀ op ∈ before k, op.queuesNothing = true) (n : Nat) :
    b.offered before n = b.flagged before n := by
  have hspares : ∀ k, ∀ op ∈ before k, op.between = true ∧ ∀ on, op ≠ .setPin .upload on := by
    intro k op hop
    obtain ⟨honWire, -, hpin⟩ := Operation.spares_of_queuesNothing (hops k op hop)
    exact ⟨Operation.between_of_onWire honWire, hpin⟩
  have hoffered : ∀ k, (b.opening before k).offered? = (b.opening before k).chip.receiver.byte? :=
    fun k => offered_outside_upload ((upload_pin_lasts hspares k).trans hmode)
  simp only [offered, flagged, hoffered]

/-- Nothing is due on a wire at rest, and nothing is shown. -/
theorem Wired.nothing_of_rest (h : Wired D b due) (hs : b.terminal.sender.idle = true)
    (hb : b.chip.receiver.busy = false) :
    b.chip.receiver.byte?.toList ++ due.filterMap Frame.reading = [] := by
  have hvalid : b.chip.receiver.valid = false := by
    apply Bool.eq_false_iff.mpr
    intro hv
    exact absurd (h.coherent.idle hb) (by rw [(h.coherent.valid hv).1]; exact nofun)
  rw [h.idle hs hb, Receiver.byte?, hvalid]
  rfl

/-- How the bytes of an upload are shared out, if `n` steps follow it: the receiver shows the first of
    them in `m` steps of upload mode, the processor is offered the next, and `rest` is on its way. -/
structure Shared (b : Board) (words : Bytes) (budget : Nat) (before : Nat → List Operation) (n m : Nat)
    (rest : Bytes) : Prop where
  within : m ≤ budget
  spent : (b.upload words budget).1 = false → m = budget
  bytes : (b.entering words).flagged (fun _ => []) m ++
    (b.offeredAfter words budget before n ++ rest) = words
  complete : ((b.upload words budget).2.course before n).terminal.sender.idle = true →
    ((b.upload words budget).2.course before n).chip.receiver.busy = false → rest = []

/-- Where the bytes of an upload go. -/
structure Apportioned (b : Board) (words : Bytes) (budget : Nat) (before : Nat → List Operation) (n : Nat) :
    Prop where
  loading : ∀ k, (steps k (b.entering words)).offered? = none
  done : (b.upload words budget).1 = true → b.offeredAfter words budget before n = []
  shared : ∀ D, b.Configured D → ∃ m rest, Shared b words budget before n m rest

theorem offeredAfter_done (h : b.EndsHigh) (hfit : words.length ≤ programDepth)
    (hops : ∀ k, ∀ op ∈ before k, op.queuesNothing = true)
    (hdone : (b.upload words budget).1 = true) : b.offeredAfter words budget before n = [] := by
  rw [upload_eq hfit] at hdone
  have hquiet := h.quiet_leaving hdone
  rw [offeredAfter, upload_eq hfit, offered_of_not_valid hquiet.valid, hquiet.step.offered hops n]
  rfl

theorem Wired.shared (h : Wired D b []) (hshown : b.chip.receiver.byte? = none)
    (hfit : words.length ≤ programDepth) (hops : ∀ k, ∀ op ∈ before k, op.queuesNothing = true) :
    ∃ m rest, Shared b words budget before n m rest := by
  have hentering : Wired D (b.entering words) _ :=
    h.queues (queues_entering b words) fun f hf => .inl (stop_of_queued _ _ f hf)
  obtain ⟨m, hm, hspent, hleaving⟩ := leaving_eq b words budget
  -- In upload mode, in the last step, and after it.
  obtain ⟨due₁, hdrained, hloaded⟩ := @Wired.flagged_course _ D _ (fun _ => []) hentering (fun _ => nofun) m
  have hleft : Wired D (b.leaving words budget) (due₁ ++ []) := by
    rw [hleaving, ← course_steps]
    exact hdrained.queues (queues_leaving _) nofun
  rw [List.append_nil] at hleft
  obtain ⟨due₂, hlast, hlasts⟩ := hleft.step_bytes
  obtain ⟨due₃, hend, hcourse⟩ := hlast.flagged_course hops n
  have hmode : (b.leaving words budget).step.pins.upload = false := driven_upload
  have hbyte : (b.leaving words budget).chip.receiver = (Board.steps m (b.entering words)).chip.receiver := by
    rw [hleaving]
    rfl
  refine ⟨m, (((b.leaving words budget).step.course before n).chip.receiver.byte?.toList ++
    due₃.filterMap Frame.reading), hm, by rwa [upload_eq hfit], ?_, by
      rw [upload_eq hfit]; exact hend.nothing_of_rest⟩
  calc (b.entering words).flagged (fun _ => []) m ++ (b.offeredAfter words budget before n ++
      (((b.leaving words budget).step.course before n).chip.receiver.byte?.toList ++
        due₃.filterMap Frame.reading))
    _ = (b.entering words).flagged (fun _ => []) m ++ ((b.leaving words budget).chip.receiver.byte?.toList ++
        due₁.filterMap Frame.reading) := by
      rw [offeredAfter, upload_eq hfit, offered_outside_upload rfl, offered_eq_flagged hmode hops,
        List.append_assoc, hcourse, hlasts]
    _ = words := by
      rw [hbyte, ← course_steps, hloaded, (queues_entering b words).receiver, hshown, List.nil_append,
        filterMap_reading_send]
      rfl

/-- From a reset on, at any rates and with any budget. -/
theorem apportioned_of_upload (h : b.Reachable) (hattached : b.attached = true)
    (hpin : b.pins.reset = true) (hfit : words.length ≤ programDepth) (budget : Nat)
    (hops : ∀ k, ∀ op ∈ before k, op.queuesNothing = true) (n : Nat) :
    Apportioned b.reset.resetTerminal words budget before n where
  loading := offered_while_uploading _ words
  done := offeredAfter_done (endsHigh_reset h hattached hpin) hfit hops
  shared := fun _ hb => (wired_reset hb).shared rfl hfit hops

/-! ## An upload that is given up -/

/-- The run starts with the first step. -/
def startFirst : Nat → List Operation
  | 0 => [.pulseRunStart]
  | _ + 1 => []

/-- At sixteen steps to a bit: ten steps are not enough for a byte, and then the stock program is
    started, which reads a byte first. -/
theorem apportioned_of_upload_given_up :
    let b := ofConfig ⟨1843200, 115200, 10⟩
    (b.Reachable ∧ b.attached = true ∧ b.pins.reset = true ∧ [97].length ≤ programDepth ∧
      ∀ k, ∀ op ∈ startFirst k, op.queuesNothing = true) ∧
    Apportioned b.reset.resetTerminal [97] 10 startFirst 146 := by
  intro b
  have hb : b.Reachable := .start _
  have hops : ∀ k, ∀ op ∈ startFirst k, op.queuesNothing = true
    | 0 => List.forall_mem_singleton.mpr rfl
    | _ + 1 => nofun
  exact ⟨⟨hb, rfl, rfl, by decide, hops⟩,
    apportioned_of_upload hb rfl rfl (by decide) 10 hops 146⟩

/-- The program reads the byte of the upload, and stores it. -/
theorem offered_of_abandoned :
    let b := (ofConfig ⟨1843200, 115200, 10⟩).reset.resetTerminal
    let abandoned := (b.upload [97] 10).2
    (b.upload [97] 10).1 = false ∧ (abandoned.opening startFirst 144).offered? = some 97 ∧
      (abandoned.course startFirst 146).chip.core.tape.cells.get ⟨0, by decide⟩ = 97 := by
  decide +kernel

end

end Board

end BrainfuckBoard
