import BrainfuckBoard.Proofs.Board.Course
import BrainfuckBoard.Proofs.Serial.Transmission

/- The wire from the board to the terminal, over a whole run. The processor hands over a
   byte only while the transmitter is free (`Cpu.free_of_send`), and so a step adds one to
   the bytes that the terminal hears or is about to hear (`Speaks.step`). Whatever
   the program and the pins do, the terminal hears the bytes that were handed over, all but
   the one that is being sent, and never an error (`heard_of_requested`). The transmitter is
   free again within the ten bits of a frame (`exists_free`). -/
namespace BrainfuckBoard

/-! ## A byte is handed over -/

namespace Cpu

section
variable {c : Cpu} {i : Inputs} {programDepth tapeDepth : Nat}

theorem execute_send (h : i.sending = true) : (c.execute i programDepth tapeDepth).2.send = none := by
  unfold execute
  split
  case h_5 => simp [h]
  case h_6 => split <;> rfl
  all_goals rfl

theorem step_send (h : i.sending = true) : (c.step i programDepth tapeDepth).2.send = none := by
  unfold step
  split
  case h_1 => split <;> rfl
  case h_7 => exact execute_send h
  case h_9 => simp [h]
  case h_10 => split <;> rfl
  all_goals rfl

theorem free_of_send (h : (c.step i programDepth tapeDepth).2.send ≠ none) : i.sending = false :=
  Bool.eq_false_iff.mpr fun hsending => h (step_send hsending)

end

end Cpu

namespace Chip

section
variable {c : Chip} {pins : Pins}

theorem free_of_sent (h : c.sent? pins ≠ none) : c.transmitter.busy = false :=
  Cpu.free_of_send (i := c.core.cpuInputs (c.coreInputs pins)) h

theorem clock_rest (hrest : c.transmitter = {}) (hsent : c.sent? pins = none) :
    (c.clock pins).transmitter = {} ∧ (c.clock pins).baud.bitLag = 0 := by
  simp [Chip.clock, hsent, hrest, Transmitter.clock, BaudClock.bitLag_clock_idle]

theorem clock_busy (hb : c.transmitter.busy = true) : (c.clock pins).baud = c.baud.clock true := by
  simp only [Chip.clock, hb, Bool.true_or]

end

end Chip

namespace Board

section
variable {b b' : Board} {D n : Nat} {sent : Bytes} {frames : List Frame}
  {before : Nat → List Operation}

/-- The bytes in `sent` have been handed to the transmitter. The terminal has heard all of
    them, or all but the last. -/
structure Speaks (D : Nat) (b : Board) (sent : Bytes) : Prop where
  awake : b.Awake
  paced : b.chip.baud.Paced D
  period : b.terminal.period.toNat = 16 * D
  speaking : ∃ unheard, Speaking D b.chip.baud.bitLag b.chip.transmitter b.terminal.listener unheard ∧
    sent = b.terminal.listener.received.toList ++ unheard
  errors : b.terminal.listener.framingErrors = 0

theorem Speaks.step (h : Speaks D b sent) (hbound : 152 * D < 2 ^ 32) :
    Speaks D b.step (sent ++ (b.chip.sent? b.drivenPins).toList) := by
  obtain ⟨unheard, hspeaking, hsent⟩ := h.speaking
  have hfree : b.chip.sent? b.drivenPins ≠ none → b.chip.transmitter.busy = false := Chip.free_of_sent
  obtain ⟨unheard', hspeaking', hheard, herrors⟩ := hspeaking.clock h.paced h.period hbound hfree
  have hchip : b.step.chip = b.chip.clock b.drivenPins := by rw [h.awake.step_chip, h.awake.driven]
  have hterminal := h.awake.step_terminal
  rw [hchip] at hterminal
  refine ⟨h.awake.step, ?_, ?_, ⟨unheard', ?_, ?_⟩, ?_⟩
  · rw [hchip]
    exact h.paced.clock _
  · rw [hterminal]
    exact h.period
  · rw [hchip, hterminal]
    exact hspeaking'
  · rw [hsent, hterminal, List.append_assoc]
    exact hheard.symm
  · rw [hterminal]
    exact herrors.trans h.errors

theorem Speaks.complete (h : Speaks D b sent) (hfree : b.chip.transmitter.busy = false) :
    sent = b.terminal.listener.received.toList := by
  obtain ⟨unheard, hspeaking, hsent⟩ := h.speaking
  rwa [hspeaking.silent_of_free hfree, List.append_nil] at hsent

theorem Speaks.queues (h : Speaks D b sent) (hq : Queues b b' frames) : Speaks D b' sent where
  awake := hq.awake h.awake
  paced := by rw [hq.baud]; exact h.paced
  period := by rw [hq.period]; exact h.period
  speaking := by rw [hq.baud, hq.transmitter, hq.listener]; exact h.speaking
  errors := by rw [hq.listener]; exact h.errors

theorem speaks_reset (h : b.Configured D) : Speaks D b.reset.resetTerminal [] where
  awake := (wired_reset h).awake
  paced := (wired_reset h).paced
  period := (wired_reset h).period
  speaking := ⟨[], .silent rfl rfl rfl (Nat.zero_le _) rfl, rfl⟩
  errors := rfl

/-! ## The transmitter gets free -/

/-- A step in which the transmitter stays busy. Something may have been done to the board before. -/
theorem Speaks.elapsed_next (h : Speaks D b sent) (hkept : Kept b b')
    (hb : b.chip.transmitter.busy = true) (hb' : b'.step.chip.transmitter.busy = true) :
    Speaking.elapsed D b'.step.chip.baud.bitLag b'.step.chip.transmitter =
      Speaking.elapsed D b.chip.baud.bitLag b.chip.transmitter + 1 := by
  obtain ⟨unheard, hspeaking, -⟩ := h.speaking
  have hchip := (hkept.running ⟨h.awake.resetPin, h.awake.released⟩).step_chip
  have hbusy : b'.chip.transmitter.busy = true := by rwa [hkept.transmitter]
  rw [hchip] at hb' ⊢
  rw [Chip.clock_busy hbusy]
  simp only [Chip.clock, hkept.baud, hkept.transmitter] at hb' ⊢
  exact hspeaking.elapsed_clock h.paced hb hb'

/-- Within a frame, whatever the program does. -/
theorem exists_free {run : Nat → Board} (hspeaks : ∀ n, ∃ sent, Speaks D (run n) sent)
    (hrun : ∀ n, ∃ b', Kept (run n) b' ∧ run (n + 1) = b'.step) :
    ∃ n, n ≤ 160 * D ∧ (run n).chip.transmitter.busy = false := by
  refine @Receiver.exists_rest (fun n => (run n).chip.transmitter.busy)
    (fun n => Speaking.elapsed D (run n).chip.baud.bitLag (run n).chip.transmitter)
    (160 * D) (160 * D) ?_ ?_ ?_
  · intro n _ hb hb'
    obtain ⟨sent, hn⟩ := hspeaks n
    obtain ⟨b', hkept, hnext⟩ := hrun n
    simp only [hnext] at hb' ⊢
    exact hn.elapsed_next hkept hb hb'
  · intro hb
    obtain ⟨sent, hfirst⟩ := hspeaks 0
    obtain ⟨unheard, hspeaking, -⟩ := hfirst.speaking
    have hpos := hspeaking.elapsed_pos hb
    omega
  · intro hb
    obtain ⟨sent, hlast⟩ := hspeaks (160 * D)
    obtain ⟨unheard, hspeaking, -⟩ := hlast.speaking
    exact hspeaking.elapsed_le hlast.paced hb

/-! ## What has been handed over in a run -/

/-- The byte that is handed to the transmitter in step `k`. -/
def request (b : Board) (before : Nat → List Operation) (k : Nat) : Option UInt8 :=
  (b.opening before k).chip.sent? (b.opening before k).drivenPins

/-- The bytes that have been handed to the transmitter in the first `n` steps. -/
def requested (b : Board) (before : Nat → List Operation) (n : Nat) : Bytes :=
  (List.range n).flatMap fun k => (b.request before k).toList

theorem requested_succ :
    b.requested before (n + 1) = b.requested before n ++ (b.request before n).toList := by
  simp [requested, List.range_succ]

theorem speaks_course (h : b.Configured D) (hbound : 152 * D < 2 ^ 32)
    (hops : ∀ k, ∀ op ∈ before k, op.onWire = true) : ∀ n,
    Speaks D (b.reset.resetTerminal.course before n) (b.reset.resetTerminal.requested before n)
  | 0 => speaks_reset h
  | n + 1 => by
    have hopening : Speaks D (b.reset.resetTerminal.opening before n)
        (b.reset.resetTerminal.requested before n) :=
      (speaks_course h hbound hops n).queues (queues_after (hops n))
    rw [requested_succ]
    exact hopening.step hbound

/-- What the terminal has heard after `n` steps. Within the ten bits of a frame it has heard
    everything that had been handed over. -/
structure Heard (b : Board) (before : Nat → List Operation) (n : Nat) : Prop where
  free : ∀ k, b.request before k ≠ none → (b.opening before k).chip.transmitter.busy = false
  in_order : ∃ unheard : Bytes, unheard.length ≤ 1 ∧ b.requested before n =
    (b.course before n).terminal.listener.received.toList ++ unheard
  complete : (b.course before n).chip.transmitter.busy = false →
    b.requested before n = (b.course before n).terminal.listener.received.toList
  errors : (b.course before n).terminal.listener.framingErrors = 0
  frees : ∃ m, n ≤ m ∧ m ≤ n + 10 * b.chip.baud.bitDivisor.toNat ∧
    (b.course before m).chip.transmitter.busy = false ∧
    b.requested before m = (b.course before m).terminal.listener.received.toList

/-- From a reset on, whatever else is done to the board. -/
theorem heard_of_requested (h : b.Configured D) (hbound : 152 * D < 2 ^ 32)
    (hops : ∀ k, ∀ op ∈ before k, op.onWire = true) (n : Nat) :
    Heard b.reset.resetTerminal before n := by
  have hspeaks := speaks_course h hbound hops n
  obtain ⟨unheard, hspeaking, hsent⟩ := hspeaks.speaking
  obtain ⟨k, hk, hfree⟩ := @exists_free D (fun k => b.reset.resetTerminal.course before (n + k))
    (fun k => ⟨_, speaks_course h hbound hops (n + k)⟩)
    (fun k => ⟨_, (queues_after (hops (n + k))).toKept, rfl⟩)
  refine ⟨fun k hk => Chip.free_of_sent hk, ⟨unheard, hspeaking.length_le, hsent⟩, hspeaks.complete,
    hspeaks.errors, n + k, Nat.le_add_right n k, ?_, hfree,
    (speaks_course h hbound hops (n + k)).complete hfree⟩
  have hbit : b.reset.resetTerminal.chip.baud.bitDivisor.toNat = 16 * D := h.bit
  omega

/-- At 1.8432 MHz and 115200 baud: three outputs in a row, while frames with a bad stop bit come
    in and the upload pin is toggled. After 600 steps the terminal has heard all three. -/
theorem heard_of_requested_row :
    let b := Board.ofConfig ⟨1843200, 115200, 8⟩
    let before : Nat → List Operation := fun k =>
      if k = 0 then [.loadProgram [128, 128, 128, 0], .loadTape [72], .pulseRunStart]
      else [.sendFrame 90 false, .setPin .upload (k % 2 == 0), .setGap 0]
    (b.Configured 1 ∧ 152 * 1 < 2 ^ 32 ∧ ∀ k, ∀ op ∈ before k, op.onWire = true) ∧
      Heard b.reset.resetTerminal before 600 ∧
      b.reset.resetTerminal.requested before 600 = [72, 72, 72] ∧
      (b.reset.resetTerminal.course before 600).terminal.listener.received = #[72, 72, 72] := by
  intro b before
  have hb : b.Configured 1 := ⟨rfl, rfl, by decide, by decide, by decide, by decide⟩
  have hops : ∀ k, ∀ op ∈ before k, op.onWire = true := by
    intro k op hop
    dsimp only [before] at hop
    split at hop
    · simp only [List.mem_cons, List.not_mem_nil, or_false] at hop
      rcases hop with rfl | rfl | rfl <;> rfl
    · simp only [List.mem_cons, List.not_mem_nil, or_false] at hop
      rcases hop with rfl | rfl | rfl <;> rfl
  have hheard : Heard b.reset.resetTerminal before 600 := heard_of_requested hb (by decide) hops 600
  have hend : (b.reset.resetTerminal.course before 600).chip.transmitter.busy = false ∧
      (b.reset.resetTerminal.course before 600).terminal.listener.received = #[72, 72, 72] := by
    decide +kernel
  refine ⟨⟨hb, by decide, hops⟩, hheard, ?_, hend.2⟩
  rw [hheard.complete hend.1, hend.2]

end

end Board

end BrainfuckBoard
