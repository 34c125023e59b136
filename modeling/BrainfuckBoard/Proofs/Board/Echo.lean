import BrainfuckBoard.Proofs.Board.Completion
import BrainfuckBoard.Proofs.Board.Pace

/- The stock program on a stream of any length, all of it queued at the terminal at once.
   `Echoing` accounts for every byte of the stream: it has been taken, it is shown, or it is
   due; and what has been taken is answered or about to be. It is kept by every step
   (`Echoing.step`) because the program is in time for each byte. When the terminal has sent
   everything the program has taken the zero at the end, and gets to its halt
   (`echoes_stream`). -/
namespace BrainfuckBoard.Board

open Image (Task At Balanced answer)

section
variable {b : Board} {D : Nat} {bytes : Bytes} {due : List Frame} {seen : List Exchange}
  {s : Word.State} {task : Task}

/-! ## Between two steps -/

/-- `bytes`, and a zero after them, are sent to the program. -/
structure Echoing (D : Nat) (bytes : Bytes) (b : Board) (seen : List Exchange) (s : Word.State)
    (due : List Frame) (task : Task) : Prop extends Plays D Image.stock b seen s due where
  spaced : ∀ f ∈ due, f.stop = true ∧ 1 ≤ f.gap
  stream : receivedBytes seen ++ (b.chip.receiver.byte?.toList ++ due.filterMap Frame.reading) =
    bytes ++ [0]
  place : At task s
  balanced : Balanced seen task
  inTime : InTime D b task
  good : b.chip.receiver.frameError = false

/-- A zero ends the stream. -/
theorem split_zero : ∀ {past bytes rest : Bytes}, 0 ∉ past → 0 ∉ bytes →
    past ++ 0 :: rest = bytes ++ [0] → past = bytes ∧ rest = []
  | [], [], rest, _, _, h => ⟨rfl, (List.cons.inj h).2⟩
  | [], byte :: bytes, rest, _, hbytes, h =>
    absurd (List.mem_cons.mpr (.inl (List.cons.inj h).1)) hbytes
  | byte :: past, [], rest, hpast, _, h =>
    absurd (List.mem_cons.mpr (.inl (List.cons.inj h).1.symm)) hpast
  | byte :: past, byte' :: bytes, rest, hpast, hbytes, h => by
    obtain ⟨rfl, htail⟩ := List.cons.inj h
    obtain ⟨rfl, hrest⟩ := split_zero (fun hin => hpast (List.mem_cons_of_mem _ hin))
      (fun hin => hbytes (List.mem_cons_of_mem _ hin)) htail
    exact ⟨rfl, hrest⟩

/-- When the zero has been taken nothing else comes. -/
theorem Echoing.finished {rest : Bytes} (h : Echoing D bytes b seen s due (.finish rest))
    (hbytes : 0 ∉ bytes) : receivedBytes seen = bytes ++ [0] ∧ b.chip.receiver.byte? = none ∧
      sentBytes seen ++ rest = answer bytes ++ [10] := by
  obtain ⟨past, hreceived, hpast, hsent⟩ := h.balanced
  have hstream := h.stream
  rw [hreceived, List.append_assoc, List.singleton_append] at hstream
  obtain ⟨rfl, hrest⟩ := split_zero hpast hbytes hstream
  exact ⟨hreceived, Option.toList_eq_nil_iff.mp (List.append_eq_nil_iff.mp hrest).1, hsent⟩

/-- A byte finds the program waiting for it. -/
theorem Echoing.waits (h : Echoing D bytes b seen s due task) (hbytes : 0 ∉ bytes)
    (hbyte : b.chip.receiver.byte? ≠ none) : b.cpu.phase = .waitReceive := by
  have htime := h.inTime
  cases htime with
  | waits k _ hnone => exact absurd hnone hbyte
  | arrived _ hphase => exact hphase
  | replies k hreplies => exact absurd hreplies.byte hbyte
  | finishes => exact absurd (h.finished hbytes).2.1 hbyte

/-- The receiver shows no errors where all frames are good. -/
theorem frameError_of_shown {r : Receiver} {due' : List Frame} (hgood : ∀ f ∈ due, f.stop = true)
    (h : r.shown ++ due'.map Frame.reading = due.map Frame.reading) : r.frameError = false := by
  apply Bool.eq_false_iff.mpr
  intro herror
  have hnone : none ∈ r.shown := by simp [Receiver.shown, herror]
  obtain ⟨f, hf, hreading⟩ := List.mem_map.mp (h ▸ List.mem_append_left _ hnone)
  simp [Frame.reading, hgood f hf] at hreading

theorem Echoing.step (h : Echoing D bytes b seen s due task) (hbound : 152 * D < 2 ^ 32)
    (hbytes : 0 ∉ bytes) : ∃ seen' t due' task', Echoing D bytes b.step seen' t due' task' := by
  obtain ⟨seen', t, due', hmoves, hplays, hshown, hsuffix⟩ := h.toPlays.step hbound
  have hsignals : b.signals.received = b.chip.receiver.byte? := received_signals h.upload
  have hreceived : receivedBytes seen' = b.chip.receiver.byte?.toList := by
    rw [← hsignals]
    apply hmoves.received h.tracks
    rw [hsignals]
    exact h.waits hbytes
  have hsent : (b.chip.sent? b.drivenPins).toList = sentBytes seen' := by
    rw [sent_signals h.wired.awake]
    exact hmoves.sent.1
  have hstream : receivedBytes (seen ++ seen') ++
      (b.step.chip.receiver.byte?.toList ++ due'.filterMap Frame.reading) = bytes ++ [0] := by
    rw [receivedBytes_append, hreceived, bytes_of_shown hshown, List.append_assoc]
    exact h.stream
  have hspaced : ∀ f ∈ due', f.stop = true ∧ 1 ≤ f.gap := fun f hf => h.spaced f (hsuffix.subset hf)
  have hgood := frameError_of_shown (fun f hf => (h.spaced f hf).1) hshown
  rcases hmoves.within_or_step with ⟨rfl, rfl, hp⟩ | hone
  · have htime := h.inTime.within h.toPlays hp (Option.toList_eq_nil_iff.mp hsent) h.place h.spaced
    exact ⟨_, t, due', task, hplays, hspaced, hstream, h.place, by rw [List.append_nil]; exact h.balanced,
      htime, hgood⟩
  · obtain ⟨task', hnext, hplace⟩ := h.place.next hone
    have htime := h.inTime.next h.toPlays hnext hsent hreceived
    exact ⟨_, t, due', task', hplays, hspaced, hstream, hplace, h.balanced.next hnext, htime, hgood⟩

theorem Echoing.steps (h : Echoing D bytes b seen s due task) (hbound : 152 * D < 2 ^ 32)
    (hbytes : 0 ∉ bytes) : ∀ n, ∃ seen' t due' task', Echoing D bytes (steps n b) seen' t due' task'
  | 0 => ⟨seen, s, due, task, h⟩
  | n + 1 => by
    obtain ⟨_, _, _, _, hn⟩ := Echoing.steps h hbound hbytes n
    rw [steps_succ]
    exact hn.step hbound hbytes

/-! ## The end -/

/-- When the terminal has sent everything, the program has taken it. -/
theorem Echoing.finishes (h : Echoing D bytes b seen s due task) (hsender : b.terminal.sender.idle = true)
    (hbusy : b.chip.receiver.busy = false) : due = [] ∧ b.chip.receiver.byte? = none ∧
      receivedBytes seen = bytes ++ [0] ∧ ∃ rest, task = .finish rest := by
  obtain rfl := h.wired.idle hsender hbusy
  have hbyte : b.chip.receiver.byte? = none := by
    cases hv : b.chip.receiver.valid with
    | false => simp [Receiver.byte?, hv]
    | true =>
      have hrest := (h.wired.coherent.valid hv).1
      rw [h.wired.coherent.idle hbusy] at hrest
      cases hrest
  have hstream := h.stream
  rw [hbyte, List.filterMap_nil, List.append_nil, Option.toList_none, List.append_nil] at hstream
  have hzero : 0 ∈ receivedBytes seen := by
    rw [hstream]
    exact List.mem_append_right _ (List.mem_singleton_self 0)
  have hbalanced := h.balanced
  refine ⟨rfl, hbyte, hstream, ?_⟩
  cases task with
  | ask => exact absurd hzero hbalanced.2
  | reply => exact absurd hzero hbalanced.2
  | finish rest => exact ⟨rest, rfl⟩

/-- A driver who has nothing to send only looks on. -/
theorem run_nothing (b : Board) (willing : Nat → Bool) : ∀ n,
    (⟨b, []⟩ : Driver).run willing n = ⟨Board.steps n b, []⟩
  | 0 => rfl
  | n + 1 => by
    rw [Driver.run, run_nothing b willing n, steps_succ]
    rfl

theorem Echoing.halts (h : Echoing D bytes b seen s due task) (hbound : 152 * D < 2 ^ 32)
    (hbytes : 0 ∉ bytes) : ∃ n, ∀ m, n ≤ m →
      (Board.steps m b).halted = true ∧ (Board.steps m b).chip.transmitter.busy = false := by
  obtain ⟨n, -, hrest⟩ := h.wired.rests
  obtain ⟨hsender, hbusy⟩ := hrest n (Nat.le_refl n)
  obtain ⟨seen', t, due', task', hn⟩ := h.steps hbound hbytes n
  obtain ⟨rfl, hbyte, hreceived, rest, rfl⟩ := hn.finishes hsender hbusy
  obtain ⟨more, u, hrun, hhalt, -, hnone⟩ := hn.place.ends
  let d : Driver := ⟨Board.steps n b, []⟩
  have hnothing : (Board.steps n b).chip.receiver.byte?.toList ++ [].filterMap Frame.reading =
      (none : Option UInt8).toList := by
    rw [hbyte]
    rfl
  have hserves : Serves D Image.stock (receivedBytes seen') (d.run (fun _ => true) 0) seen' t none :=
    .of_plays hn.toPlays hnothing (fun hne => absurd rfl hne) (List.append_nil _).symm
  have hfair : ∀ n, ∃ m, n ≤ m ∧ (fun _ => true : Nat → Bool) m = true := fun n => ⟨n, Nat.le_refl n, rfl⟩
  have hin : receivedBytes (seen' ++ more) <+: receivedBytes seen' := by
    rewrite [receivedBytes_append, hnone, List.append_nil]
    exact List.prefix_refl _
  obtain ⟨m, _, -, hend⟩ := Serves.completes_run hbound hfair hrun hserves hin
  obtain ⟨k, -, hrest⟩ := hend.comes_to_rest hbound hhalt
  refine ⟨n + k, fun j hj => ?_⟩
  have hj' := hrest (j - n) (by omega)
  rw [run_nothing, ← steps_add] at hj'
  rwa [show n + (j - n) = j by omega] at hj'

/-- The board does with a stream what the stock program says.
    1. The processor halts, and the transmitter gets free.
    2. By then the terminal has heard every byte less 32, and a line feed.
    3. There is no error on the wire in either direction. -/
structure Echoes (b : Board) (bytes : Bytes) : Prop where
  halts : ∃ n, ∀ m, n ≤ m →
    (Board.steps m b).halted = true ∧ (Board.steps m b).chip.transmitter.busy = false
  heard : ∀ n, (Board.steps n b).halted = true → (Board.steps n b).chip.transmitter.busy = false →
    (Board.steps n b).terminal.listener.received.toList = answer bytes ++ [10]
  errors : ∀ n, (Board.steps n b).terminal.listener.framingErrors = 0 ∧
    (Board.steps n b).chip.receiver.frameError = false

theorem Echoing.echoes (h : Echoing D bytes b seen s due task) (hbound : 152 * D < 2 ^ 32)
    (hbytes : 0 ∉ bytes) : Echoes b bytes where
  halts := h.halts hbound hbytes
  heard := by
    intro n hhalted hfree
    obtain ⟨seen', t, due', task', hn⟩ := h.steps hbound hbytes n
    have hphase : (Board.steps n b).chip.core.cpu.phase = .halt := by
      simpa [Board.halted, Cpu.halted, Board.cpu] using hhalted
    have hpre := hn.tracks.prepared
    simp only [Core.Prepared, hphase] at hpre
    obtain rfl := hn.place.of_halt (Core.step_halt hpre)
    obtain ⟨-, -, hsent⟩ := hn.finished hbytes
    rw [← hn.speaks.complete hfree, ← hsent, List.append_nil]
  errors := by
    intro n
    obtain ⟨seen', t, due', task', hn⟩ := h.steps hbound hbytes n
    exact ⟨hn.speaks.errors, hn.good⟩

/-! ## From the start of a run -/

theorem ready_reset (h : b.Configured D) (hupload : b.pins.upload = false) :
    Ready D [] b.reset.resetTerminal where
  wired := wired_reset h
  queue := rfl
  untouched := ⟨rfl, rfl, rfl, rfl, rfl⟩
  runStart := rfl
  upload := hupload
  loader := ⟨rfl, rfl⟩
  settled := ⟨rfl, rfl⟩
  stored := fun _ => rfl

/-- The run has been started, and nothing is queued yet. -/
def started (b : Board) : Board := b.reset.resetTerminal.pulseRunStart.step

theorem echoing_start (h : b.Configured D) (hbound : 152 * D < 2 ^ 32) (hupload : b.pins.upload = false)
    (hgap : 1 ≤ b.terminal.gap) (bytes : Bytes) :
    ∃ due, Echoing D bytes (b.started.send (bytes ++ [0])) [] {} due .ask := by
  have hready := ready_reset h hupload
  obtain ⟨hplays, hbyte⟩ := plays_start hready hbound
  have hidle : b.started.chip.receiver.phase = .idle :=
    hplays.wired.coherent.idle (hready.wired_pulse.stays_idle rfl rfl)
  have hfree : b.started.FreeIn D 0 :=
    hready.speaks_pulse.freeIn_step (freeIn_of_free rfl) hready.tracks_pulse.2
  have hterminal : b.started.terminal.gap = b.terminal.gap := by
    rw [started, hready.wired_pulse.awake.step_terminal]
    rfl
  have hsilent : (b.started.send (bytes ++ [0])).Silent D (151 * D + 1) := by
    have hphase : (b.started.send (bytes ++ [0])).chip.receiver.phase = .idle := hidle
    rw [Silent, hphase]
    exact Away.of_le rfl (Nat.le_refl _)
  obtain ⟨_, -, hshown, -⟩ := hready.wired_pulse.step
  have hD := hplays.wired.paced.pos
  have hrank := Core.rank_le (b.started.send (bytes ++ [0])).cpu.phase
  have hexpects : Expects D (151 * D + 1) (b.started.send (bytes ++ [0])) :=
    ⟨hsilent, .inr (by omega), 0, hfree, by omega⟩
  have hgood := frameError_of_shown (List.forall_mem_nil _) hshown
  refine ⟨_, hplays.send (bytes ++ [0]), ?_, ?_, .first {}, ⟨rfl, List.not_mem_nil⟩,
    .waits _ hexpects hbyte, hgood⟩
  · intro f hf
    obtain ⟨byte, -, rfl⟩ := List.mem_map.mp hf
    have hgap' : 1 ≤ b.started.terminal.gap.toNat := by
      rw [hterminal]
      exact UInt32.le_iff_toNat_le.mp hgap
    exact ⟨rfl, hgap'⟩
  · have hnone : (b.started.send (bytes ++ [0])).chip.receiver.byte? = none := hbyte
    rw [hnone, List.nil_append, filterMap_reading_send]
    rfl

/-- A stream of any length, at any rate and with any gap between the frames. -/
theorem echoes_stream (h : b.Configured D) (hbound : 152 * D < 2 ^ 32) (hupload : b.pins.upload = false)
    (hgap : 1 ≤ b.terminal.gap) (hbytes : 0 ∉ bytes) : Echoes (b.started.send (bytes ++ [0])) bytes := by
  obtain ⟨due, hstart⟩ := echoing_start h hbound hupload hgap bytes
  exact hstart.echoes hbound hbytes

/-- One step to a tick, and one bit between the frames: twenty-six letters in a row. -/
theorem echoes_stream_alphabet :
    let b := Board.ofConfig ⟨1843200, 115200, 0⟩
    let letters : Bytes := (List.range 26).map fun i => UInt8.ofNat (97 + i)
    (b.Configured 1 ∧ 152 * 1 < 2 ^ 32 ∧ b.pins.upload = false ∧ 1 ≤ b.terminal.gap ∧ 0 ∉ letters) ∧
      Echoes (b.started.send (letters ++ [0])) letters := by
  intro b letters
  have hb : b.Configured 1 := ⟨rfl, rfl, by decide, by decide, by decide, by decide⟩
  have hletters : 0 ∉ letters := by decide
  exact ⟨⟨hb, by decide, rfl, by decide, hletters⟩, echoes_stream hb (by decide) rfl (by decide) hletters⟩

end

end BrainfuckBoard.Board
