import BrainfuckBoard.Board
import BrainfuckBoard.Proofs.Serial.Oversampling
import BrainfuckBoard.Proofs.Serial.Reception

/- The wire from the terminal into the board. `Wired` is the receiver's invariant with
   the sending half of the terminal in it: it holds from the start (`wired_reset`), is
   kept by every step (`Wired.step`), and frames that are queued at the terminal
   become due (`Wired.send`). As long as nothing more is queued (`Undisturbed`) the
   terminal gets through what it has, the receiver is idle soon after and stays so
   (`Undisturbed.rests`), and then nothing is due any more (`Wired.idle`). -/
namespace BrainfuckBoard.Board

/-! ## A step out of reset -/

/-- The board runs, and the terminal is on the wire. -/
structure Awake (b : Board) : Prop where
  attached : b.attached = true
  resetPin : b.pins.reset = true
  released : b.resetLine = .released

section
variable {b : Board}

theorem Awake.driven (h : b.Awake) : b.drivenPins = { b.pins with rx := b.terminal.line } := by
  simp [drivenPins, h.attached]

theorem Awake.step_chip (h : b.Awake) :
    b.step.chip = b.chip.clock { b.pins with rx := b.terminal.line } := by
  simp only [step, nextChip, h.resetPin, h.released, h.driven]
  rfl

theorem Awake.step_terminal (h : b.Awake) :
    b.step.terminal = b.terminal.advance.sample b.step.chip.transmitter.line := by
  simp [step, nextTerminal, h.attached]

theorem Awake.step_pins (h : b.Awake) :
    b.step.pins = { b.pins with rx := b.terminal.line, runStart := false } := by
  simp [step, h.driven]

theorem Awake.step (h : b.Awake) : b.step.Awake where
  attached := h.attached
  resetPin := by rw [h.step_pins]; exact h.resetPin
  released := by simp only [Board.step, h.resetPin, h.released]; rfl

theorem steps_succ (n : Nat) (b : Board) : steps (n + 1) b = (steps n b).step := by
  induction n generalizing b with
  | zero => rfl
  | succ n ih => exact ih b.step

theorem steps_add (m n : Nat) (b : Board) : steps (m + n) b = steps n (steps m b) := by
  induction m generalizing b with
  | zero => rw [Nat.zero_add]; rfl
  | succ m ih => rw [Nat.add_right_comm]; exact ih b.step

end

/-! ## The levels on the wire -/

/-- The levels that the receiver has yet to see: two in its registers, and the rest at
    the terminal. -/
def levels (D : Nat) (b : Board) : List Bool :=
  b.chip.receiver.second :: b.chip.receiver.first :: b.terminal.sender.ahead (16 * D)

/-- Everything on the way from the terminal is accounted for: the frames whose bytes the
    receiver has yet to show are due, in order. -/
structure Wired (D : Nat) (b : Board) (due : List Frame) : Prop where
  awake : b.Awake
  paced : b.chip.baud.Paced D
  period : b.terminal.period.toNat = 16 * D
  placed : b.terminal.sender.Placed (16 * D)
  coherent : b.chip.receiver.Coherent
  listening : Listening D b.chip.baud.lag b.chip.receiver.phase (b.levels D) due
  clear : ∀ f ∈ due, f.Clear

section
variable {b : Board} {D : Nat} {due : List Frame}

theorem Wired.step_levels (h : Wired D b due) :
    ∃ pad, (pad = [] ∨ (pad = [true] ∧ b.terminal.sender.ahead (16 * D) = [])) ∧
      b.step.levels D = b.chip.receiver.first :: b.terminal.sender.ahead (16 * D) ++ pad := by
  have hline := Sender.line_eq h.placed
  have hahead := (Sender.ahead_advance h.placed h.period).2
  have hreg := @Receiver.clock_registers b.chip.receiver b.terminal.line b.chip.baud.oversampleTick
  have hlevels : b.step.levels D = b.chip.receiver.first :: b.terminal.sender.line ::
      (b.terminal.sender.ahead (16 * D)).tail := by
    rw [levels, h.awake.step_terminal, h.awake.step_chip, ← hahead]
    simp only [Chip.clock, hreg]
    rfl
  cases ha : b.terminal.sender.ahead (16 * D) with
  | nil => exact ⟨[true], .inr ⟨rfl, rfl⟩, by rw [hlevels, hline, ha]; rfl⟩
  | cons level tail => exact ⟨[], .inl rfl, by rw [hlevels, hline, ha]; simp⟩

/-- A step, and what it shows of the frames that are due. -/
theorem Wired.step (h : Wired D b due) :
    ∃ due', Wired D b.step due' ∧
      b.step.chip.receiver.shown ++ due'.map Frame.reading = due.map Frame.reading ∧
      due' <:+ due := by
  have hadvance := (Sender.ahead_advance h.placed h.period).1
  have hD := h.paced.pos
  obtain ⟨due', hlisten, hsuffix, hshown⟩ : Listening.Hands D
      (if b.chip.baud.oversampleTick then 1 else b.chip.baud.lag + 1)
      (b.chip.receiver.clock b.terminal.line b.chip.baud.oversampleTick)
      (b.chip.receiver.first :: b.terminal.sender.ahead (16 * D)) due :=
    h.listening.clock rfl rfl hD h.paced.lag_le h.paced.tick_iff h.clear
  obtain ⟨pad, hpad, hlevels⟩ := h.step_levels
  have hchip := h.awake.step_chip
  have hclear : ∀ f ∈ due', f.Clear := fun f hf => h.clear f (hsuffix.subset hf)
  refine ⟨due', ⟨h.awake.step, ?_, ?_, ?_, ?_, ?_, hclear⟩, ?_, hsuffix⟩
  · rw [hchip]
    exact h.paced.clock _
  · rw [h.awake.step_terminal]
    exact h.period
  · rw [h.awake.step_terminal]
    exact hadvance
  · rw [hchip]
    exact h.coherent.clock
  · rw [hlevels, hchip]
    simp only [Chip.clock, h.paced.lag_clock]
    rcases hpad with rfl | ⟨rfl, hnil⟩
    · rw [List.append_nil]
      exact hlisten
    · -- The terminal has nothing to send, and the line rests high.
      apply Listening.padded hlisten
      rw [hnil]
      simp only [List.length_singleton]
      omega
  · rw [hchip]
    exact hshown

/-- The bytes among what is shown and what is due. -/
theorem bytes_of_shown {r : Receiver} {due' : List Frame}
    (h : r.shown ++ due'.map Frame.reading = due.map Frame.reading) :
    r.byte?.toList ++ due'.filterMap Frame.reading = due.filterMap Frame.reading := by
  have hreduce := congrArg (List.filterMap id) h
  rwa [List.filterMap_append, Receiver.reduce_shown, List.filterMap_map, List.filterMap_map] at hreduce

theorem Wired.step_bytes (h : Wired D b due) :
    ∃ due', Wired D b.step due' ∧
      b.step.chip.receiver.byte?.toList ++ due'.filterMap Frame.reading =
        due.filterMap Frame.reading := by
  obtain ⟨due', hwired, hshown, -⟩ := h.step
  exact ⟨due', hwired, bytes_of_shown hshown⟩

/-- Frames that are queued are due after the rest. -/
theorem Wired.enqueue (h : Wired D b due) {frames : List Frame} (hclear : ∀ f ∈ frames, f.Clear)
    {b' : Board} (ha : b'.Awake) (hbaud : b'.chip.baud = b.chip.baud)
    (hreceiver : b'.chip.receiver = b.chip.receiver) (hperiod : b'.terminal.period = b.terminal.period)
    (hsender : b'.terminal.sender = b.terminal.sender.enqueue frames) :
    Wired D b' (due ++ frames) := by
  have hpos : 0 < 16 * D := Nat.mul_pos (by decide) h.paced.pos
  obtain ⟨hplaced, hahead⟩ := Sender.ahead_enqueue h.placed hpos frames
  have hlevels : b'.levels D = b.levels D ++ waves D frames := by
    rw [levels, levels, hreceiver, hsender, hahead]
    rfl
  refine ⟨ha, ?_, ?_, ?_, ?_, ?_, ?_⟩
  · rw [hbaud]
    exact h.paced
  · rw [hperiod]
    exact h.period
  · rw [hsender]
    exact hplaced
  · rw [hreceiver]
    exact h.coherent
  · rw [hlevels, hbaud, hreceiver]
    exact h.listening.queued frames
  · intro f hf
    rcases List.mem_append.mp hf with hf | hf
    · exact h.clear f hf
    · exact hclear f hf

/-- Bytes that are queued have a good stop bit. -/
theorem stop_of_queued (terminal : Terminal) (bytes : Bytes) :
    ∀ f ∈ bytes.map fun byte => terminal.frame byte true, f.stop = true := by
  intro f hf
  obtain ⟨byte, -, rfl⟩ := List.mem_map.mp hf
  rfl

theorem Wired.send (h : Wired D b due) (bytes : Bytes) :
    Wired D (b.send bytes) (due ++ bytes.map fun byte => b.terminal.frame byte true) :=
  h.enqueue (fun f hf => .inl (stop_of_queued _ _ f hf))
    ⟨h.awake.attached, h.awake.resetPin, h.awake.released⟩ rfl rfl rfl rfl

/-! ## The end of a transmission -/

theorem Wired.sender_idle (h : Wired D b due) :
    b.terminal.sender.idle = true ↔ b.terminal.sender.ahead (16 * D) = [] :=
  (Sender.ahead_eq_nil_iff h.placed).symm

theorem Wired.idle (h : Wired D b due) (hs : b.terminal.sender.idle = true)
    (hb : b.chip.receiver.busy = false) : due = [] := by
  have hlisten := h.listening
  rw [h.coherent.idle hb, levels, h.sender_idle.mp hs] at hlisten
  exact hlisten.due_of_idle h.paced.pos (Nat.le_refl _)

/-- Steps since the receiver noticed the start bit, from its first tick on. -/
def elapsed (D : Nat) (b : Board) : Nat := b.chip.receiver.phase.ticks * D + b.chip.baud.lag

theorem Wired.elapsed_of_busy (h : Wired D b due) (hs : b.terminal.sender.idle = true)
    (hb : b.chip.receiver.busy = true) : 160 * D ≤ elapsed D b + 2 ∧ elapsed D b ≤ 159 * D := by
  apply h.listening.elapsed_of_busy (h.coherent.busy.mp hb) h.paced.pos h.paced.lag_le
  rw [levels, h.sender_idle.mp hs]
  exact Nat.le_refl _

theorem Wired.elapsed_step (h : Wired D b due) (hb : b.chip.receiver.busy = true)
    (hb' : b.step.chip.receiver.busy = true) : elapsed D b.step = elapsed D b + 1 := by
  obtain ⟨due', h', -⟩ := h.step
  have hp := h.coherent.busy.mp hb
  have hp' := h'.coherent.busy.mp hb'
  have hchip := h.awake.step_chip
  rw [hchip] at hp'
  rw [elapsed, hchip]
  exact Receiver.elapsed_clock h.paced hp hp' _

/-- A receiver at rest stays so until something is sent. -/
theorem Wired.stays_idle (h : Wired D b due) (hs : b.terminal.sender.idle = true)
    (hb : b.chip.receiver.busy = false) : b.step.chip.receiver.busy = false := by
  have hphase := h.coherent.idle hb
  have hlisten := h.listening
  rw [hphase, levels, h.sender_idle.mp hs] at hlisten
  have hsecond := hlisten.high_of_idle rfl h.paced.pos (Nat.le_refl _)
  rw [h.awake.step_chip]
  simp only [Chip.clock, Receiver.clock_idle_high hphase hsecond]
  exact hb

/-! ## Steps with nothing queued in between -/

/-- Nothing has been done to the wire from the terminal. -/
structure SameWire (b b' : Board) : Prop where
  awake : b.Awake → b'.Awake
  baud : b'.chip.baud = b.chip.baud
  receiver : b'.chip.receiver = b.chip.receiver
  period : b'.terminal.period = b.terminal.period
  sender : b'.terminal.sender = b.terminal.sender

/-- A board step by step. Something may be done to it in between, but not to the wire from the
    terminal. -/
def Undisturbed (run : Nat → Board) : Prop := ∀ n, ∃ b', SameWire (run n) b' ∧ run (n + 1) = b'.step

theorem SameWire.refl (b : Board) : SameWire b b := ⟨id, rfl, rfl, rfl, rfl⟩

theorem undisturbed_steps (b : Board) : Undisturbed fun n => Board.steps n b :=
  fun n => ⟨Board.steps n b, .refl _, steps_succ n b⟩

section
variable {b' : Board} {run : Nat → Board}

theorem SameWire.wired (hsame : SameWire b b') (h : Wired D b due) : Wired D b' due := by
  have hsender : b'.terminal.sender = b.terminal.sender.enqueue [] :=
    hsame.sender.trans (Sender.enqueue_nil _).symm
  have hwired := h.enqueue (List.forall_mem_nil _) (hsame.awake h.awake) hsame.baud hsame.receiver
    hsame.period hsender
  rwa [List.append_nil] at hwired

theorem SameWire.elapsed (hsame : SameWire b b') : elapsed D b' = elapsed D b := by
  rw [Board.elapsed, hsame.receiver, hsame.baud]
  rfl

variable (hrun : Undisturbed run) (h : Wired D (run 0) due)
include hrun

theorem Undisturbed.drop (m : Nat) : Undisturbed fun n => run (m + n) := fun n => hrun (m + n)

include h

theorem Undisturbed.wired : ∀ n, ∃ due', Wired D (run n) due'
  | 0 => ⟨due, h⟩
  | n + 1 => by
    obtain ⟨_, hn⟩ := Undisturbed.wired n
    obtain ⟨b', hsame, hnext⟩ := hrun n
    obtain ⟨due', hstep, -⟩ := (hsame.wired hn).step
    exact ⟨due', by rwa [hnext]⟩

/-- Every step sends one level. -/
theorem Undisturbed.ahead : ∀ n,
    (run n).terminal.sender.ahead (16 * D) = ((run 0).terminal.sender.ahead (16 * D)).drop n
  | 0 => rfl
  | n + 1 => by
    obtain ⟨_, hn⟩ := hrun.wired h n
    obtain ⟨b', hsame, hnext⟩ := hrun n
    have hwired := hsame.wired hn
    have hahead := (Sender.ahead_advance hwired.placed hwired.period).2
    rw [hsame.sender, Undisturbed.ahead n, List.tail_drop] at hahead
    rw [hnext, hwired.awake.step_terminal, ← hahead, ← hsame.sender]
    rfl

theorem Undisturbed.sender_idle (hs : (run 0).terminal.sender.idle = true) (n : Nat) :
    (run n).terminal.sender.idle = true := by
  obtain ⟨_, hn⟩ := hrun.wired h n
  rw [hn.sender_idle, hrun.ahead h, h.sender_idle.mp hs, List.drop_nil]

/-- The receiver is at the end of the last frame by the time it has gone out. -/
theorem Undisturbed.settles (hs : (run 0).terminal.sender.idle = true) :
    ∃ k, k ≤ 2 ∧ (run k).chip.receiver.busy = false := by
  have hpos := h.paced.pos
  refine @Receiver.exists_rest (fun k => (run k).chip.receiver.busy) (fun k => elapsed D (run k))
    (159 * D) 2 ?_ ?_ ?_
  · intro k _ hb hb'
    obtain ⟨_, hk⟩ := hrun.wired h k
    obtain ⟨b', hsame, hnext⟩ := hrun k
    simp only [hnext, ← hsame.elapsed (D := D), ← hsame.receiver] at hb hb' ⊢
    exact (hsame.wired hk).elapsed_step hb hb'
  · intro hb
    obtain ⟨hend, -⟩ := h.elapsed_of_busy hs hb
    show 159 * D < elapsed D (run 0) + 2
    omega
  · intro hb
    obtain ⟨_, htwo⟩ := hrun.wired h 2
    exact (htwo.elapsed_of_busy (hrun.sender_idle h hs 2) hb).2

theorem Undisturbed.stays_idle (hs : (run 0).terminal.sender.idle = true)
    (hb : (run 0).chip.receiver.busy = false) : ∀ n, (run n).chip.receiver.busy = false
  | 0 => hb
  | n + 1 => by
    obtain ⟨_, hn⟩ := hrun.wired h n
    obtain ⟨b', hsame, hnext⟩ := hrun n
    have hsender : b'.terminal.sender.idle = true := by
      rw [hsame.sender]
      exact hrun.sender_idle h hs n
    have hreceiver : b'.chip.receiver.busy = false := by
      rw [hsame.receiver]
      exact Undisturbed.stays_idle hs hb n
    rw [hnext]
    exact (hsame.wired hn).stays_idle hsender hreceiver

/-- From any state, once the terminal has sent what it has. -/
theorem Undisturbed.rests : ∃ n, n ≤ ((run 0).terminal.sender.ahead (16 * D)).length + 2 ∧ ∀ k, n ≤ k →
    (run k).terminal.sender.idle = true ∧ (run k).chip.receiver.busy = false := by
  obtain ⟨_, hsent⟩ := hrun.wired h ((run 0).terminal.sender.ahead (16 * D)).length
  have hidle := hsent.sender_idle.mpr (by rw [hrun.ahead h, List.drop_length])
  obtain ⟨j, hj, hbusy⟩ := (hrun.drop _).settles hsent hidle
  refine ⟨((run 0).terminal.sender.ahead (16 * D)).length + j, Nat.add_le_add_left hj _, fun k hk => ?_⟩
  obtain ⟨i, rfl⟩ := Nat.exists_eq_add_of_le hk
  obtain ⟨_, hrest⟩ := hrun.wired h (((run 0).terminal.sender.ahead (16 * D)).length + j)
  have hsender := (hrun.drop _).sender_idle hsent hidle j
  exact ⟨(hrun.drop _).sender_idle hrest hsender i, (hrun.drop _).stays_idle hrest hsender hbusy i⟩

end

theorem Wired.sender_idle_steps (h : Wired D b due) (hs : b.terminal.sender.idle = true) (n : Nat) :
    (Board.steps n b).terminal.sender.idle = true :=
  (undisturbed_steps b).sender_idle h hs n

theorem Wired.rests (h : Wired D b due) : ∃ n, n ≤ (b.terminal.sender.ahead (16 * D)).length + 2 ∧
    ∀ k, n ≤ k →
      (Board.steps k b).terminal.sender.idle = true ∧ (Board.steps k b).chip.receiver.busy = false :=
  (undisturbed_steps b).rests h

/-! ## The start -/

/-- The rates of the chip and of the terminal agree, sixteen ticks to a bit. -/
structure Configured (D : Nat) (b : Board) : Prop where
  attached : b.attached = true
  resetPin : b.pins.reset = true
  pos : 1 ≤ D
  oversample : b.chip.baud.oversampleDivisor.toNat = D
  bit : b.chip.baud.bitDivisor.toNat = 16 * D
  period : b.terminal.period = b.chip.baud.bitDivisor

theorem wired_reset (h : b.Configured D) : Wired D b.reset.resetTerminal [] where
  awake := ⟨h.attached, h.resetPin, rfl⟩
  paced := BaudClock.paced_reset h.oversample h.bit h.pos
  period := by
    rw [show b.reset.resetTerminal.terminal.period = b.terminal.period from rfl, h.period]
    exact h.bit
  placed := Sender.placed_empty _
  coherent := Receiver.coherent_initial
  listening := Listening.silence D _ 2
  clear := nofun

end

end BrainfuckBoard.Board
