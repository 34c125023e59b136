import BrainfuckBoard.Board.Run
import BrainfuckBoard.Proofs.Board.Budgets
import BrainfuckBoard.Proofs.Board.Loading
import BrainfuckBoard.Proofs.Board.Wire
import BrainfuckBoard.Proofs.Processor.Tracking

/- An upload, from the reset to the step after upload mode.
   `Uploading` accounts for the program: what the store has, what the loader holds,
   what the receiver shows and what is still on the wire are its bytes in order. A step
   keeps that (`Uploading.step`), so the store has them all when the board is drained
   (`ready_of_upload`), and it is drained in time (`upload_done`). -/
namespace BrainfuckBoard

/-! ## A processor that does not run -/

namespace Core

section
variable {c : Core} {i : Inputs}

theorem requests_idle (hp : c.cpu.phase = .idle) (hs : i.runStart = false) : c.cpuStep i = (c.cpu, {}) := by
  simp [cpuStep, Cpu.step, hp, cpuInputs, hs]

theorem clock_idle (hp : c.cpu.phase = .idle) (hs : i.runStart = false) (ht : c.tape.Settled) :
    (c.clock i).cpu = c.cpu ∧ (c.clock i).tape = c.tape := by
  have hstep := requests_idle hp hs
  refine ⟨by simp [clock, hstep], ?_⟩
  simp only [clock, tapeAsked, requests, hstep]
  exact Ram.clock_settled ht

theorem clock_idle_program (hp : c.cpu.phase = .idle) (hs : i.runStart = false)
    (hm : c.program.Settled) :
    (c.clock i).program = match i.uploaded with
      | some (addr, value) =>
        { c.program with
          cells := c.program.cells.set (c.program.index addr.toNat) value (c.program.index _).isLt }
      | none => c.program := by
  have hstep := requests_idle hp hs
  simp only [clock, programAsked, requests, hstep]
  cases i.uploaded with
  | none => exact Ram.clock_settled hm
  | some w => exact Ram.clock_requestWrite hm _ _

end

end Core

namespace Board

/-- Nothing has run, and nothing has been sent to the terminal, since the reset. -/
structure Untouched (b : Board) : Prop where
  cpu : b.chip.core.cpu = {}
  tape : b.chip.core.tape = .blank tapeDepth
  transmitter : b.chip.transmitter = {}
  bitLag : b.chip.baud.bitLag = 0
  listener : b.terminal.listener = {}

section
variable {b : Board} {D : Nat} {words : Bytes} {due : List Frame}

theorem Untouched.step (h : b.Untouched) (ha : b.Awake) (hs : b.pins.runStart = false) :
    b.step.Untouched ∧ b.step.pins.runStart = false ∧
      (b.chip.core.program.Settled → b.step.chip.core.program = match b.chip.loader.written? with
        | some (addr, value) => { b.chip.core.program with
            cells := b.chip.core.program.cells.set (b.chip.core.program.index addr.toNat) value }
        | none => b.chip.core.program) := by
  have hp : b.chip.core.cpu.phase = .idle := by rw [h.cpu]
  have ht : b.chip.core.tape.Settled := by
    rw [h.tape]
    exact ⟨rfl, rfl⟩
  have hrun : (b.chip.coreInputs { b.pins with rx := b.terminal.line }).runStart = false := by
    simp [Chip.coreInputs, hs]
  have hsent : b.chip.sent? { b.pins with rx := b.terminal.line } = none := by
    rw [Chip.sent?, Core.requests, Core.requests_idle hp hrun]
  obtain ⟨hcpu, htape⟩ := Core.clock_idle hp hrun ht
  have htransmitter : b.step.chip.transmitter = {} := by
    rw [ha.step_chip]
    simp [Chip.clock, hsent, h.transmitter, Transmitter.clock]
  refine ⟨⟨?_, ?_, htransmitter, ?_, ?_⟩, by rw [ha.step_pins], fun hm => ?_⟩
  · rw [ha.step_chip]
    exact hcpu.trans h.cpu
  · rw [ha.step_chip]
    exact htape.trans h.tape
  · rw [ha.step_chip]
    simp [Chip.clock, hsent, h.transmitter, BaudClock.bitLag_clock_idle]
  · rw [ha.step_terminal, htransmitter]
    simp [Terminal.sample, Terminal.advance, h.listener, Listener.sample]
  · rw [ha.step_chip]
    exact Core.clock_idle_program hp hrun hm

/-! ## Upload mode -/

/-- After `k` bytes have been written: the store begins with them, and the rest of the
    program is with the loader, shown by the receiver, or due. -/
structure Uploading (D : Nat) (words : Bytes) (b : Board) (due : List Frame) (k : Nat) : Prop where
  wired : Wired D b due
  untouched : b.Untouched
  runStart : b.pins.runStart = false
  upload : b.pins.upload = true
  follows : b.chip.loader.Follows b.chip.receiver
  reached : b.chip.loader.Reached programDepth k
  settled : b.chip.core.program.Settled
  stored : ∀ i : Fin programDepth, b.chip.core.program.cells[i] = (words.take k).getD i.val Image.stock[i]
  rest : words.drop k =
    b.chip.loader.held ++ (b.chip.receiver.byte?.toList ++ due.filterMap Frame.reading)

theorem getD_take_succ {k : Nat} {value : UInt8} {rest : List UInt8} (h : words.drop k = value :: rest)
    (i : Nat) (default : UInt8) :
    (words.take (k + 1)).getD i default = if i = k then value else (words.take k).getD i default := by
  have hk : words[k]? = some value := by
    have h₀ := congrArg (fun l => l[0]?) h
    rwa [List.getElem?_drop] at h₀
  simp only [List.getD_eq_getElem?_getD, List.getElem?_take]
  rcases Nat.lt_trichotomy i k with hlt | rfl | hgt
  · rw [if_pos (by omega), if_pos hlt, if_neg (by omega)]
  · rw [if_pos (by omega), if_pos rfl, hk]
    rfl
  · rw [if_neg (by omega), if_neg (by omega), if_neg (by omega)]

theorem Uploading.byte_routed {k : Nat} (h : Uploading D words b due k) :
    (b.chip.route { b.pins with rx := b.terminal.line }).loaderByte? = b.chip.receiver.byte? := by
  simp [Chip.route, Route.select, Route.loaderByte?, Receiver.byte?, h.upload]

/-- The byte that the loader writes is the next of the program, and goes to its place. -/
theorem Uploading.stored_write {k : Nat} (h : Uploading D words b due k)
    (hfit : words.length ≤ programDepth) {addr value : UInt8}
    (hw : b.chip.loader.written? = some (addr, value)) (haddr : addr.toNat = k % programDepth)
    (i : Fin programDepth) :
    (b.chip.core.program.cells.set (b.chip.core.program.index addr.toNat) value)[i] =
      (words.take (k + 1)).getD i.val Image.stock[i] := by
  have hdrop := h.rest
  rw [Loader.held, hw, Option.toList_some, List.map_cons, List.map_nil] at hdrop
  have hk : k < programDepth := by
    have hlen := congrArg List.length hdrop
    simp only [List.length_drop, List.length_append, List.length_cons] at hlen
    omega
  have hindex : b.chip.core.program.index addr.toNat = ⟨k, hk⟩ := by
    apply Ram.index_eq
    rw [haddr, Nat.mod_eq_of_lt hk]
  rw [getD_take_succ hdrop, ← h.stored i]
  simp only [hindex, Fin.getElem_fin, Vector.getElem_set]
  split
  · next heq => rw [if_pos heq.symm]
  · next hne => rw [if_neg fun heq => hne heq.symm]

theorem Uploading.step {k : Nat} (h : Uploading D words b due k) (hfit : words.length ≤ programDepth) :
    ∃ due' k', Uploading D words b.step due' k' := by
  obtain ⟨due', hwired, hreadings⟩ := h.wired.step_bytes
  obtain ⟨huntouched, hstart, hprogram⟩ := h.untouched.step h.wired.awake h.runStart
  have hbyte : b.chip.receiver.byte? ≠ none → b.chip.receiver.valid = true := by
    unfold Receiver.byte?
    split
    · next hv => exact fun _ => hv
    · exact fun hn => absurd rfl hn
  obtain ⟨hreached, hheld, haddr⟩ := h.reached.clock h.follows hbyte (by decide) (by decide)
  have hprogram := hprogram h.settled
  have hloader : b.step.chip.loader =
      b.chip.loader.clock true b.chip.receiver.byte? programDepth := by
    rw [h.wired.awake.step_chip, ← h.byte_routed, ← h.upload]
    rfl
  refine ⟨due', k + b.chip.loader.held.length, hwired, huntouched, hstart, ?_, ?_, ?_, ?_, ?_, ?_⟩
  · rw [h.wired.awake.step_pins]
    exact h.upload
  · rw [hloader, h.wired.awake.step_chip]
    exact h.follows.clock h.wired.coherent hbyte
  · rw [hloader]
    exact hreached
  · rw [hprogram]
    split
    · exact h.settled
    · exact h.settled
  · intro i
    rw [hprogram]
    cases hw : b.chip.loader.written? with
    | none =>
      rw [Loader.held, hw]
      exact h.stored i
    | some w =>
      obtain ⟨addr, value⟩ := w
      rw [Loader.held, hw]
      exact h.stored_write hfit hw (haddr addr value hw) i
  · -- What the loader holds has left the stream, and the receiver's byte is held next.
    calc words.drop (k + b.chip.loader.held.length)
      _ = (words.drop k).drop b.chip.loader.held.length := List.drop_drop.symm
      _ = b.chip.receiver.byte?.toList ++ due.filterMap Frame.reading := by
        rw [h.rest, List.drop_left]
      _ = b.step.chip.loader.held ++
          (b.step.chip.receiver.byte?.toList ++ due'.filterMap Frame.reading) := by
        rw [hloader, hheld, hreadings]

theorem Uploading.steps {k : Nat} (h : Uploading D words b due k) (hfit : words.length ≤ programDepth) :
    ∀ n, ∃ due' k', Uploading D words (Board.steps n b) due' k'
  | 0 => ⟨due, k, h⟩
  | n + 1 => by
    obtain ⟨_, _, hn⟩ := Uploading.steps h hfit n
    rw [steps_succ]
    exact hn.step hfit

theorem Wired.setUpload (h : Wired D b due) (on : Bool) : Wired D (b.setUpload on) due :=
  ⟨⟨h.awake.attached, h.awake.resetPin, h.awake.released⟩, h.paced, h.period, h.placed, h.coherent,
    h.listening, h.clear⟩

theorem filterMap_reading_send (t : Terminal) (words : Bytes) :
    (words.map fun byte => t.frame byte true).filterMap Frame.reading = words := by
  simp [List.filterMap_map, Function.comp_def, Terminal.frame, Frame.reading]

theorem uploading_start (h : b.Configured D) (words : Bytes) :
    Uploading D words ((b.reset.resetTerminal.setUpload true).send words)
      (words.map fun byte => b.reset.resetTerminal.terminal.frame byte true) 0 where
  wired := ((wired_reset h).setUpload true).send words
  untouched := ⟨rfl, rfl, rfl, rfl, rfl⟩
  runStart := rfl
  upload := rfl
  follows := Loader.follows_idle rfl
  reached := rfl
  settled := ⟨rfl, rfl⟩
  stored := fun _ => rfl
  rest := (filterMap_reading_send _ words).symm

/-! ## Draining -/

theorem drained_of_drain {budget : Nat} (h : (drain budget b).1 = true) :
    ∃ n, (drain budget b).2 = Board.steps n b ∧ (drain budget b).2.drained = true := by
  obtain ⟨n, -, hfirst, hn⟩ := (ends_drain budget b).reports.least h
  exact ⟨n, hn, by rw [hn]; exact hfirst.reached⟩

theorem drain_of_drained {n budget : Nat} (hn : n < budget) (h : (Board.steps n b).drained = true) :
    (drain budget b).1 = true :=
  (ends_drain budget b).reports.truth.mpr ⟨n, Nat.zero_le n, hn, h⟩

theorem Uploading.drained {k : Nat} (h : Uploading D words b due k) (hs : b.terminal.sender.idle = true)
    (hb : b.chip.receiver.busy = false) : b.drained = true := by
  have hphase := h.wired.coherent.idle hb
  have hvalid : b.chip.receiver.valid = false := by
    apply Bool.eq_false_iff.mpr
    intro hv
    rw [(h.wired.coherent.valid hv).1] at hphase
    exact absurd hphase (by decide)
  have hloader : b.chip.loader.phase = .idle := by
    have hf := h.follows
    unfold Loader.Follows at hf
    split at hf
    · next hp => exact hp
    · obtain ⟨-, n, -, hp⟩ := hf
      exact absurd (hphase.symm.trans hp) nofun
    · obtain ⟨-, n, -, hp⟩ := hf
      exact absurd (hphase.symm.trans hp) nofun
  simp [Board.drained, hs, hb, hvalid, Loader.busy, hloader]

theorem length_waves_send (t : Terminal) (words : Bytes) :
    (waves D (words.map fun byte => t.frame byte true)).length =
      words.length * (10 + t.gap.toNat) * 16 * D := by
  induction words with
  | nil => simp [waves]
  | cons word words ih =>
    simp only [waves, List.map_cons, List.flatMap_cons, List.length_append, Frame.length_wave] at ih ⊢
    rw [ih, List.length_cons]
    simp only [Terminal.frame, Frame.length, Nat.succ_mul, Nat.add_mul, Nat.mul_assoc]
    omega

theorem uploading_drains (h : b.Configured D) (hfit : words.length ≤ programDepth) :
    ∃ n, n ≤ words.length * (10 + b.terminal.gap.toNat) * 16 * D + 2 ∧
      (Board.steps n ((b.reset.resetTerminal.setUpload true).send words)).drained = true := by
  have hstart := uploading_start h words
  have hahead : ((b.reset.resetTerminal.setUpload true).send words).terminal.sender.ahead (16 * D) =
      waves D (words.map fun byte => b.reset.resetTerminal.terminal.frame byte true) := by
    cases words with
    | nil => rfl
    | cons word words =>
      simp [Board.send, Terminal.send, Sender.enqueue, Sender.ahead, waves, setUpload, resetTerminal,
        Terminal.reset]
  obtain ⟨n, hn, hrest⟩ := hstart.wired.rests
  obtain ⟨hidle, hbusy⟩ := hrest n (Nat.le_refl n)
  obtain ⟨_, _, hend⟩ := hstart.steps hfit n
  rw [hahead, length_waves_send] at hn
  exact ⟨n, hn, hend.drained hidle hbusy⟩

/-! ## The end of an upload -/

/-- The program is in the store, and the board waits for a run to start. -/
structure Ready (D : Nat) (words : Bytes) (b : Board) : Prop where
  wired : Wired D b []
  queue : b.terminal.sender.queue = []
  untouched : b.Untouched
  runStart : b.pins.runStart = false
  upload : b.pins.upload = false
  loader : b.chip.loader.phase = .idle ∧ b.chip.loader.addr = 0
  settled : b.chip.core.program.Settled
  stored : ∀ i : Fin programDepth, b.chip.core.program.cells[i] = words.getD i.val Image.stock[i]

theorem Uploading.ready {k : Nat} (h : Uploading D words b due k) (hd : b.drained = true) :
    Ready D words (b.setUpload false).step := by
  simp only [Board.drained, Bool.and_eq_true, Bool.not_eq_true'] at hd
  obtain ⟨⟨⟨hsender, hbusy⟩, hvalid⟩, hloader⟩ := hd
  have hphase : b.chip.loader.phase = .idle := by simpa [Loader.busy] using hloader
  have hwritten : b.chip.loader.written? = none := by simp [Loader.written?, Loader.writes, hphase]
  have hdue := h.wired.idle hsender hbusy
  -- Nothing is due and nothing is held, so the store has all of the program.
  have hall : words.take k = words := by
    have hrest := h.rest
    rw [hdue, Loader.held, hwritten, Receiver.byte?, hvalid] at hrest
    exact List.take_of_length_le (List.drop_eq_nil_iff.mp hrest)
  have hwired := h.wired.setUpload false
  rw [hdue] at hwired
  have huntouched : (b.setUpload false).Untouched :=
    ⟨h.untouched.cpu, h.untouched.tape, h.untouched.transmitter, h.untouched.bitLag,
      h.untouched.listener⟩
  obtain ⟨hstep, hstart, hprogram⟩ := huntouched.step hwired.awake h.runStart
  have hprogram := hprogram h.settled
  rw [show (b.setUpload false).chip.loader.written? = none from hwritten] at hprogram
  obtain ⟨due', hnext, -, hsuffix⟩ := hwired.step
  obtain rfl := List.eq_nil_of_suffix_nil hsuffix
  refine ⟨hnext, ?_, hstep, hstart, ?_, ?_, ?_, ?_⟩
  · have hidle := hwired.sender_idle_steps hsender 1
    exact List.isEmpty_iff.mp hidle
  · rw [hwired.awake.step_pins]
    rfl
  · rw [hwired.awake.step_chip]
    exact ⟨rfl, rfl⟩
  · rw [hprogram]
    exact h.settled
  · intro i
    rw [hprogram, ← hall]
    exact h.stored i

/-- An upload that is done has done its work, whatever its budget was. -/
theorem ready_of_upload (h : b.Configured D) {budget : Nat}
    (hdone : (b.reset.resetTerminal.upload words budget).1 = true) :
    words.length ≤ programDepth ∧ Ready D words (b.reset.resetTerminal.upload words budget).2 := by
  unfold Board.upload at hdone ⊢
  split at hdone
  · exact absurd hdone Bool.false_ne_true
  · next hfit =>
    have hfit := Nat.le_of_not_lt hfit
    rw [if_neg (by omega)]
    obtain ⟨n, hn, hdrained⟩ := drained_of_drain hdone
    obtain ⟨_, _, hloading⟩ := (uploading_start h words).steps hfit n
    rw [hn] at hdrained
    refine ⟨hfit, ?_⟩
    dsimp only
    rw [hn]
    exact hloading.ready hdrained

theorem upload_done (h : b.Configured D) (hfit : words.length ≤ programDepth) {budget : Nat}
    (hbudget : words.length * (10 + b.terminal.gap.toNat) * 16 * D + 3 ≤ budget) :
    (b.reset.resetTerminal.upload words budget).1 = true := by
  obtain ⟨n, hn, hdrained⟩ := uploading_drains h hfit
  unfold Board.upload
  rw [if_neg (by omega)]
  exact drain_of_drained (by omega) hdrained

/-- What an upload changes on a board that has not run: the store begins with the
    program, and nothing else is different. -/
structure Uploaded (words : Bytes) (b b' : Board) : Prop where
  written : ∀ (i : Nat) (hi : i < words.length), b'.chip.core.program.peek i = words[i]
  kept : ∀ i, words.length ≤ i → i < programDepth →
    b'.chip.core.program.peek i = b.chip.core.program.peek i
  loader : b'.chip.loader.phase = .idle ∧ b'.chip.loader.addr = 0
  upload : b'.pins.upload = false
  queue : b'.terminal.sender.queue = []
  cpu : b'.cpu = b.cpu
  tape : b'.chip.core.tape = b.chip.core.tape
  transmitter : b'.chip.transmitter = b.chip.transmitter
  listener : b'.terminal.listener = b.terminal.listener

/-- A program that fits is written by an upload, at any rate and with any gap between
    the frames, if the budget is as long as its frames and one bit and eight steps more. -/
theorem upload_writes {budget : Nat} (h : b.Configured D) (hfit : words.length ≤ programDepth)
    (hbudget : words.length * (10 + b.terminal.gap.toNat) * 16 * D + 16 * D + 8 ≤ budget) :
    (b.reset.resetTerminal.upload words budget).1 = true ∧
      Uploaded words b.reset.resetTerminal (b.reset.resetTerminal.upload words budget).2 := by
  have hdone : (b.reset.resetTerminal.upload words budget).1 = true :=
    upload_done h hfit (by omega)
  obtain ⟨-, hready⟩ := ready_of_upload h hdone
  refine ⟨hdone, ⟨fun i hi => ?_, fun i hi hi' => ?_, hready.loader, hready.upload, hready.queue,
    hready.untouched.cpu, hready.untouched.tape, hready.untouched.transmitter,
    hready.untouched.listener⟩⟩
  · rw [@Ram.peek_eq _ _ i ⟨i, Nat.lt_of_lt_of_le hi hfit⟩ rfl, hready.stored]
    simp [hi]
  · rw [@Ram.peek_eq _ _ i ⟨i, hi'⟩ rfl, @Ram.peek_eq _ _ i ⟨i, hi'⟩ rfl, hready.stored]
    simp [hi]
    rfl

/-- At 12 MHz and 115200 baud, with a byte for each word of the store. -/
theorem upload_writes_full :
    let b := Board.ofConfig {}
    let words : Bytes := List.replicate 32 97
    (b.Configured 7 ∧ words.length ≤ programDepth ∧ 32 * 11 * 16 * 7 + 16 * 7 + 8 ≤ 100000) ∧
      (b.reset.resetTerminal.upload words 100000).1 = true ∧
      Uploaded words b.reset.resetTerminal (b.reset.resetTerminal.upload words 100000).2 := by
  intro b words
  have hb : b.Configured 7 := ⟨rfl, rfl, by decide, by decide, by decide, by decide⟩
  exact ⟨⟨hb, by decide, by decide⟩, upload_writes hb (by decide) (by decide)⟩

end

end Board

end BrainfuckBoard
