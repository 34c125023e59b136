import BrainfuckBoard.Proofs.Board.Handling
import BrainfuckBoard.Proofs.Board.Loading
import BrainfuckBoard.Proofs.Board.Spans
import BrainfuckBoard.Proofs.Processor.Tracking

/- What becomes of the bytes that come in while the board is in upload mode. On every board
   that there is, the loader is done with a byte before the receiver can show the next
   (`Reachable.following`), so it takes each of them in the step in which it shows and
   writes it in the next. The bytes go to the store in order, round and round, and the
   store is changed by nothing else (`deposits_of_shown`). It does not matter what is on
   the line, nor what the processor does. -/
namespace BrainfuckBoard

/-! ## The parts -/

namespace Loader

section
variable {l : Loader} {depth k : Nat}

/-- The bytes with their places, from address 0 on and round the store. -/
def placed (bytes : Bytes) (depth : Nat) : List (UInt8 × UInt8) :=
  bytes.mapIdx fun k byte => (UInt8.ofNat (k % depth), byte)

theorem placed_append (bytes : Bytes) (byte? : Option UInt8) : placed (bytes ++ byte?.toList) depth =
    placed bytes depth ++ byte?.toList.map fun byte => (UInt8.ofNat (bytes.length % depth), byte) := by
  cases byte? with
  | none => simp [placed]
  | some byte => simp [placed, List.mapIdx_append]

theorem length_placed (bytes : Bytes) (depth : Nat) : (placed bytes depth).length = bytes.length :=
  List.length_mapIdx

/-- What is about to be written goes to the place that has been reached. -/
theorem Reached.written (h : l.Reached depth k) :
    l.written?.toList = l.held.map fun byte => (UInt8.ofNat (k % depth), byte) := by
  cases hp : l.phase with
  | idle => simp [held, written?, writes, hp]
  | write =>
    simp only [Reached, hp] at h
    simp [held, written?, writes, hp, ← h]
  | wait => simp [held, written?, writes, hp]

end

end Loader

namespace Core

/-- The store after a word has been written to it. -/
def deposit (cells : Vector UInt8 programDepth) (word : UInt8 × UInt8) : Vector UInt8 programDepth :=
  cells.set (word.1.toNat % programDepth) word.2 (Nat.mod_lt _ (by decide))

/-- Whatever the processor does, it only reads its program. -/
theorem clock_program_deposit {c : Core} {i : Inputs} (h : c.program.Settled) :
    (c.clock i).program.cells = i.uploaded.toList.foldl deposit c.program.cells := by
  cases hu : i.uploaded with
  | none => exact clock_program_cells h hu
  | some word =>
    obtain ⟨addr, value⟩ := word
    simp only [clock, programAsked, hu]
    cases (c.requests i).programRead <;> rfl

end Core

namespace Chip

theorem valid_of_loaderByte {c : Chip} {pins : Pins} (h : (c.route pins).loaderByte? ≠ none) :
    c.receiver.valid = true := by
  cases hv : c.receiver.valid with
  | true => rfl
  | false =>
    refine absurd ?_ h
    simp [route, Route.select, Route.loaderByte?, hv]

theorem loaderByte_of_upload {c : Chip} {pins : Pins} (h : pins.upload = true) :
    (c.route pins).loaderByte? = c.receiver.byte? := by
  simp [route, Route.select, Route.loaderByte?, Receiver.byte?, h]

end Chip

namespace Board

section
variable {b b' : Board} {before : Nat → List Operation} {ops : List Operation} {n : Nat}

theorem driven_upload : b.drivenPins.upload = b.pins.upload := by
  unfold drivenPins
  split <;> rfl

theorem Running.inReset (h : b.Running) : b.inReset = false := by
  simp only [Board.inReset, h.resetPin, h.released]
  rfl

/-! ## The loader behind the receiver -/

/-- The loader will be done with its byte before the receiver shows another. -/
structure Following (b : Board) : Prop where
  follows : b.chip.loader.Follows b.chip.receiver
  coherent : b.chip.receiver.Coherent
  settled : b.chip.core.program.Settled

theorem following_reset {c : Chip} (h : b.chip = c.reset) : b.Following where
  follows := by
    rw [h]
    exact Loader.follows_idle rfl
  coherent := by
    rw [h]
    exact Receiver.coherent_initial
  settled := by
    rw [h]
    exact ⟨rfl, rfl⟩

theorem Following.step (h : b.Following) : b.step.Following := by
  cases hreset : b.inReset with
  | true =>
    have hchip : b.step.chip = b.chip.reset := by
      rw [show b.step.chip = b.nextChip b.inReset from rfl, hreset]
      rfl
    exact following_reset hchip
  | false =>
    have hchip : b.step.chip = b.chip.clock b.drivenPins := step_chip_of_run hreset
    refine ⟨?_, ?_, ?_⟩ <;> rw [hchip]
    · exact h.follows.clock h.coherent Chip.valid_of_loaderByte
    · exact h.coherent.clock
    · exact ⟨rfl, rfl⟩

theorem Following.outside (h : b.Following) (hb : Outside b b') : b'.Following := by
  obtain ⟨pins, attached, terminal, core, rfl, -, hcore⟩ := hb
  refine ⟨h.follows, h.coherent, ?_⟩
  cases hcore with
  | kept => exact h.settled
  | program words => exact ⟨rfl, rfl⟩
  | tape bytes => exact h.settled

theorem Reachable.following (h : b.Reachable) : b.Following :=
  h.holds (fun b config => following_reset (c := (b.configure config).chip) rfl)
    (fun b _ => following_reset (c := b.chip) rfl) (fun _ => Following.step)
    (fun _ _ hb hf => hf.outside hb)

/-- A byte that shows in upload mode is taken. -/
theorem Following.step_loader (h : b.Following) (hrun : b.inReset = false) (hmode : b.pins.upload = true)
    {k : Nat} (hreached : b.chip.loader.Reached programDepth k) :
    b.step.chip.loader.Reached programDepth (k + b.chip.loader.held.length) ∧
      b.step.chip.loader.held = b.chip.receiver.byte?.toList := by
  have hupload : b.drivenPins.upload = true := driven_upload.trans hmode
  have hbyte : (b.chip.route b.drivenPins).loaderByte? = b.chip.receiver.byte? :=
    Chip.loaderByte_of_upload hupload
  have hvalid : b.chip.receiver.byte? ≠ none → b.chip.receiver.valid = true := by
    rw [← hbyte]
    exact Chip.valid_of_loaderByte
  have hloader : b.step.chip.loader = b.chip.loader.clock true b.chip.receiver.byte? programDepth := by
    rw [step_chip_of_run hrun, ← hbyte, ← hupload]
    rfl
  rw [hloader]
  obtain ⟨hnext, hheld, -⟩ := hreached.clock h.follows hvalid (by decide) (by decide)
  exact ⟨hnext, hheld⟩

theorem Following.step_cells (h : b.Following) (hrun : b.inReset = false) :
    b.step.chip.core.program.cells =
      b.chip.loader.written?.toList.foldl Core.deposit b.chip.core.program.cells := by
  rw [step_chip_of_run hrun]
  exact Core.clock_program_deposit h.settled

theorem Reachable.course (h : b.Reachable) : ∀ n, (b.course before n).Reachable
  | 0 => h
  | n + 1 => ((Reachable.course h n).after (before n)).perform (.step 1)

/-! ## How long upload mode lasts -/

theorem Operation.upload_kept {op : Operation} (h : op.between = true)
    (hpin : ∀ on, op ≠ .setPin .upload on) : (b.perform op).2.pins.upload = b.pins.upload := by
  cases op with
  | setPin pin level =>
    cases pin with
    | upload => exact absurd rfl (hpin level)
    | _ => rfl
  | loadProgram words => simp only [perform, done, Board.loadProgram]
  | loadTape bytes => simp only [perform, done, Board.loadTape]
  | pulseRunStart | send _ | sendFrame _ _ | attach _ | resetTerminal | setPeriod _ | setGap _ => rfl
  | _ => exact absurd h Bool.false_ne_true

theorem upload_after (h : ∀ op ∈ ops, op.between = true ∧ ∀ on, op ≠ .setPin .upload on) :
    (b.after ops).pins.upload = b.pins.upload := by
  induction ops generalizing b with
  | nil => rfl
  | cons op ops ih =>
    obtain ⟨hop, hops⟩ := List.forall_mem_cons.mp h
    exact (ih hops).trans (op.upload_kept hop.1 hop.2)

/-- Until something is done to the pin. -/
theorem upload_pin_lasts (h : ∀ k, ∀ op ∈ before k, op.between = true ∧ ∀ on, op ≠ .setPin .upload on)
    (k : Nat) : (b.opening before k).pins.upload = b.pins.upload := by
  have hcourse : ∀ k, (b.course before k).pins.upload = b.pins.upload := by
    intro k
    induction k with
    | zero => rfl
    | succ k ih => exact driven_upload.trans ((upload_after (h k)).trans ih)
  exact (upload_after (h k)).trans (hcourse k)

/-- Until something is done to its pin, or to the reset. -/
theorem upload_mode_lasts (hb : b.Running) (hmode : b.pins.upload = true)
    (h : ∀ k, ∀ op ∈ before k, op.between = true ∧ ∀ on, op ≠ .setPin .upload on) (k : Nat) :
    (b.opening before k).inReset = false ∧ (b.opening before k).pins.upload = true := by
  have hopening : ∀ k, (b.course before k).Running → (b.opening before k).Running :=
    fun k => (kept_after fun op hop => (h k op hop).1).running
  have hcourse : ∀ k, (b.course before k).Running := by
    intro k
    induction k with
    | zero => exact hb
    | succ k ih => exact (hopening k ih).step
  exact ⟨(hopening k (hcourse k)).inReset, (upload_pin_lasts h k).trans hmode⟩

/-! ## What comes in and what is written -/

/-- The bytes that the receiver shows in the first `n` steps. -/
def flagged (b : Board) (before : Nat → List Operation) (n : Nat) : Bytes :=
  (List.range n).flatMap fun k => (b.opening before k).chip.receiver.byte?.toList

/-- The words that are written to the program store in the first `n` steps. -/
def deposits (b : Board) (before : Nat → List Operation) (n : Nat) : List (UInt8 × UInt8) :=
  (List.range n).flatMap fun k => (b.opening before k).chip.loader.written?.toList

theorem flagged_succ : b.flagged before (n + 1) =
    b.flagged before n ++ (b.opening before n).chip.receiver.byte?.toList := by
  simp [flagged, List.range_succ]

theorem deposits_succ : b.deposits before (n + 1) =
    b.deposits before n ++ (b.opening before n).chip.loader.written?.toList := by
  simp [deposits, List.range_succ]

theorem program_after (hlive : ∀ op ∈ ops, op.live = true)
    (hspare : ∀ op ∈ ops, op.sparesProgram = true) :
    (b.after ops).chip.core.program = b.chip.core.program := by
  induction ops generalizing b with
  | nil => rfl
  | cons op ops ih =>
    obtain ⟨hop, hops⟩ := List.forall_mem_cons.mp hlive
    obtain ⟨hs, hss⟩ := List.forall_mem_cons.mp hspare
    exact (ih hops hss).trans ((op.core_spared hop).2.1 hs)

/-- After `n` steps in upload mode. A byte that was shown in the last of them is held, and is
    written in the next step. -/
structure Depositing (b : Board) (before : Nat → List Operation) (n : Nat) : Prop where
  reached : (b.course before n).chip.loader.Reached programDepth (b.deposits before n).length
  placed : b.deposits before n ++ (b.course before n).chip.loader.written?.toList =
    Loader.placed (b.flagged before n) programDepth
  cells : (b.course before n).chip.core.program.cells =
    (b.deposits before n).foldl Core.deposit b.chip.core.program.cells

/-- What is written in a step was shown before it. -/
theorem Depositing.deposits_eq (h : Depositing b before n) (hlive : ∀ op ∈ before n, op.live = true) :
    b.deposits before (n + 1) = Loader.placed (b.flagged before n) programDepth := by
  have hspared : Spared (b.course before n) (b.opening before n) := spared_after hlive
  rw [deposits_succ, hspared.loader]
  exact h.placed

theorem Depositing.next (h : Depositing b before n) (hb : b.Reachable)
    (hlive : ∀ op ∈ before n, op.live = true) (hspare : ∀ op ∈ before n, op.sparesProgram = true)
    (hrun : (b.opening before n).inReset = false) (hmode : (b.opening before n).pins.upload = true) :
    Depositing b before (n + 1) := by
  have hfollowing : (b.opening before n).Following := ((hb.course n).after _).following
  have hloader : (b.opening before n).chip.loader = (b.course before n).chip.loader :=
    (spared_after hlive).loader
  have hprogram : (b.opening before n).chip.core.program = (b.course before n).chip.core.program :=
    program_after hlive hspare
  have hdeposits := h.deposits_eq hlive
  have hlength : (b.deposits before n).length + (b.opening before n).chip.loader.held.length =
      (b.flagged before n).length := by
    calc (b.deposits before n).length + (b.opening before n).chip.loader.held.length
      _ = (b.deposits before (n + 1)).length := by
        rw [deposits_succ, List.length_append, Loader.held, List.length_map]
      _ = (b.flagged before n).length := by rw [hdeposits, Loader.length_placed]
  obtain ⟨hreached, hheld⟩ := hfollowing.step_loader hrun hmode (hloader ▸ h.reached)
  rw [hlength] at hreached
  refine ⟨?_, ?_, ?_⟩
  · rw [hdeposits, Loader.length_placed]
    exact hreached
  · rw [course_succ, hreached.written, hheld, hdeposits, flagged_succ, Loader.placed_append]
  · rw [course_succ, hfollowing.step_cells hrun, hprogram, h.cells, deposits_succ, List.foldl_append]

theorem depositing_start (hidle : b.chip.loader.phase = .idle) (haddr : b.chip.loader.addr = 0) :
    Depositing b before 0 where
  reached := by simp [deposits, course, Loader.Reached, hidle, haddr]
  placed := by simp [deposits, flagged, course, Loader.placed, Loader.written?, Loader.writes, hidle]
  cells := rfl

/-- Upload mode has to last for the first `n` steps. -/
theorem depositing (hb : b.Reachable) (hidle : b.chip.loader.phase = .idle) (haddr : b.chip.loader.addr = 0)
    (hlive : ∀ k, ∀ op ∈ before k, op.live = true) (hspare : ∀ k, ∀ op ∈ before k, op.sparesProgram = true)
    (hrun : ∀ k, k < n → (b.opening before k).inReset = false ∧ (b.opening before k).pins.upload = true) :
    Depositing b before n := by
  induction n with
  | zero => exact depositing_start hidle haddr
  | succ n ih =>
    obtain ⟨hreset, hmode⟩ := hrun n (Nat.lt_succ_self n)
    have hn : Depositing b before n := ih fun k hk => hrun k (Nat.lt_succ_of_lt hk)
    exact hn.next hb (hlive n) (hspare n) hreset hmode

/-- In the first `n + 1` steps the bytes that are shown in the first `n` of them are written,
    once each and in order, and nothing else is. -/
structure Deposited (b : Board) (before : Nat → List Operation) (n : Nat) : Prop where
  in_order : b.deposits before (n + 1) = Loader.placed (b.flagged before n) programDepth
  cells : (b.course before (n + 1)).chip.core.program.cells =
    (Loader.placed (b.flagged before n) programDepth).foldl Core.deposit b.chip.core.program.cells

/-- From a loader at rest at address 0 on, however often the store is gone round. -/
theorem deposits_of_shown (h : b.Reachable) :
    (b.chip.receiver.valid = true → b.chip.loader.phase = .idle) ∧
    ∀ (before : Nat → List Operation) (n : Nat),
      (∀ k, ∀ op ∈ before k, op.live = true ∧ op.sparesProgram = true) →
      (∀ k, k ≤ n → (b.opening before k).inReset = false ∧ (b.opening before k).pins.upload = true) →
      b.chip.loader.phase = .idle → b.chip.loader.addr = 0 → Deposited b before n := by
  refine ⟨h.following.follows.idle, ?_⟩
  intro before n hops hrun hidle haddr
  have hlive : ∀ k, ∀ op ∈ before k, op.live = true := fun k op hop => (hops k op hop).1
  have hspare : ∀ k, ∀ op ∈ before k, op.sparesProgram = true := fun k op hop => (hops k op hop).2
  have hbefore : Depositing b before n :=
    depositing h hidle haddr hlive hspare fun k hk => hrun k (Nat.le_of_lt hk)
  have hafter : Depositing b before (n + 1) :=
    depositing h hidle haddr hlive hspare fun k hk => hrun k (Nat.le_of_lt_succ hk)
  have hwritten := hbefore.deposits_eq (hlive n)
  exact ⟨hwritten, hwritten ▸ hafter.cells⟩

/-- At 1.8432 MHz: the line goes up and down by itself, so that a byte shows every 160 steps, and
    there are more of them than the store has words. The program runs meanwhile. -/
theorem deposits_of_shown_noise :
    let b := (ofConfig ⟨1843200, 115200, 10⟩).after
      [.loadProgram [65, 255], .pulseRunStart, .step 5, .setPin .upload true, .attach false]
    let before : Nat → List Operation := fun k => [.setPin .rx (k / 20 % 2 == 0)]
    (b.Reachable ∧ (∀ k, ∀ op ∈ before k, op.live = true ∧ op.sparesProgram = true) ∧
      (∀ k, k ≤ 6000 → (b.opening before k).inReset = false ∧ (b.opening before k).pins.upload = true) ∧
      b.chip.loader.phase = .idle ∧ b.chip.loader.addr = 0) ∧
    ((b.opening before 175).chip.receiver.valid = true ∧ (b.opening before 175).cpu.busy = true) ∧
      Deposited b before 6000 := by
  intro b before
  have hb : b.Reachable := (Reachable.start _).after _
  have hops : ∀ k, ∀ op ∈ before k, op.live = true ∧ op.sparesProgram = true :=
    fun k => List.forall_mem_singleton.mpr ⟨rfl, rfl⟩
  have hpins : ∀ k, ∀ op ∈ before k, op.between = true ∧ ∀ on, op ≠ .setPin .upload on :=
    fun k => List.forall_mem_singleton.mpr ⟨rfl, nofun⟩
  have hrunning : b.Running := ⟨by decide +kernel, by decide +kernel⟩
  have hmode : b.pins.upload = true := by decide +kernel
  have hrun : ∀ k, k ≤ 6000 →
      (b.opening before k).inReset = false ∧ (b.opening before k).pins.upload = true :=
    fun k _ => upload_mode_lasts hrunning hmode hpins k
  have hloader : b.chip.loader.phase = .idle ∧ b.chip.loader.addr = 0 := by decide +kernel
  have hshown : (b.opening before 175).chip.receiver.valid = true ∧
      (b.opening before 175).cpu.busy = true := by decide +kernel
  exact ⟨⟨hb, hops, hrun, hloader⟩, hshown,
    (deposits_of_shown hb).2 before 6000 hops hrun hloader.1 hloader.2⟩

end

end Board

end BrainfuckBoard
