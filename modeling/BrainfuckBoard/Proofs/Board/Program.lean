import BrainfuckBoard.Proofs.Board.Completion
import BrainfuckBoard.Proofs.Language.Translation

/- A source text on the board: compiled, uploaded over the wire, and run by a driver who
   sends the input over the wire. The terminal hears what the text says, never anything
   else; and if the text comes to a halt on the input, so does the board, with the
   tape of the text (`performs_of_upload`). -/
namespace BrainfuckBoard

namespace Driver

/-- The driver of a run that is being started. -/
abbrev starting (b : Board) (input : Bytes) : Driver := ⟨b.pulseRunStart, input⟩

section
variable (code : Code) (d : Driver) (willing : Nat → Bool)

/-- A run of the code on a blank tape that has taken its bytes from the driver's input. -/
def Reference (seen : List Exchange) (c : Code × Tape) : Prop :=
  Run Code.step (code, {}) seen c ∧ receivedBytes seen <+: d.input

/-- The board does what the code does.
    1. What the terminal has heard is a beginning of what the code has sent by some step.
    2. If the code halts, and the driver is willing again and again, the processor halts
       and the transmitter gets free.
    3. When both is so the terminal has heard everything, with no error, and the tape is
       the one that the code has left. -/
structure Performs : Prop where
  heard : ∀ n, ∃ seen c, Reference code d seen c ∧
    (d.run willing n).board.terminal.listener.received.toList <+: sentBytes seen
  halts : (∀ n, ∃ m, n ≤ m ∧ willing m = true) →
    ∀ seen c, Reference code d seen c → Code.step c = .halt → ∃ n, ∀ m, n ≤ m →
      (d.run willing m).board.halted = true ∧ (d.run willing m).board.chip.transmitter.busy = false
  result : ∀ seen c, Reference code d seen c → Code.step c = .halt → ∀ n,
    (d.run willing n).board.halted = true → (d.run willing n).board.chip.transmitter.busy = false →
    (d.run willing n).board.terminal.listener.received.toList = sentBytes seen ∧
      (d.run willing n).board.terminal.listener.framingErrors = 0 ∧
      (d.run willing n).board.chip.core.tape.cells = c.2.cells ∧
      (d.run willing n).board.cpu.dp.toNat = c.2.head.val

end

section
variable {code : Code} {D : Nat} {words : Bytes} {b : Board} {input : Bytes} {willing : Nat → Bool}

/-- After the first step the program is served. -/
theorem serves_first (h : b.Ready D words) (hbound : 152 * D < 2 ^ 32) :
    Serves D b.chip.core.program.cells input ((starting b input).run willing 1) [] {} none := by
  have hfirst : (starting b input).run willing 1 = ⟨b.pulseRunStart.step, input⟩ := by
    rcases Serves.feed_cases (starting b input) (willing 0) with heq | ⟨_, _, _, hhungry, _⟩
    · exact congrArg Driver.step heq
    · have hphase : b.chip.core.cpu.phase = .waitReceive := (Serves.hungry_iff.mp hhungry).1
      rw [h.untouched.cpu] at hphase
      exact absurd hphase nofun
  rw [hfirst]
  exact Serves.start h hbound input

theorem serves_later (h : b.Ready D words) (hbound : 152 * D < 2 ^ 32) (input : Bytes)
    (willing : Nat → Bool) (n : Nat) : ∃ seen s flight, Serves D b.chip.core.program.cells input
      ((starting b input).run willing (n + 1)) seen s flight := by
  obtain ⟨seen, s, flight, hn⟩ := (serves_first h hbound).later hbound n
  exact ⟨_, s, flight, by rwa [Nat.add_comm]⟩

/-- The terminal has heard a beginning of what has been sent. -/
theorem heard_prefix {store : Vector Word 32} {d : Driver} {seen : List Exchange} {s : Word.State}
    {flight : Option UInt8} (h : Serves D store input d seen s flight) :
    d.board.terminal.listener.received.toList <+: sentBytes seen := by
  obtain ⟨unheard, -, hsent⟩ := h.speaking
  exact ⟨unheard, hsent.symm⟩

theorem stored_of_ready (h : b.Ready D words) (hfit : words.length ≤ 32) :
    Stored b.chip.core.program.cells words := by
  refine ⟨hfit, ?_⟩
  intro i w hw
  rw [h.stored i]
  simp [hw]

theorem halt_of_halted {store : Vector Word 32} {d : Driver} {seen : List Exchange} {s : Word.State}
    {flight : Option UInt8} (h : Serves D store input d seen s flight)
    (hhalted : d.board.halted = true) : Word.step store s = .halt := by
  have hphase : d.board.chip.core.cpu.phase = .halt := by
    simpa [Board.halted, Cpu.halted, Board.cpu] using hhalted
  have hpre := h.tracks.prepared
  simp only [Core.Prepared, hphase] at hpre
  exact Core.step_halt hpre

section
variable {ws : List Word} (hlaid : Laid code ws) (h : b.Ready D (ws ++ [Word.halt]))
  (hfit : (ws ++ [Word.halt]).length ≤ 32) (hbound : 152 * D < 2 ^ 32)
include hlaid h hfit hbound

theorem heard_of_ready (n : Nat) : ∃ seen c, Reference code (starting b input) seen c ∧
    ((starting b input).run willing n).board.terminal.listener.received.toList <+:
      sentBytes seen := by
  have hlocated : Located (ws ++ [Word.halt]) ({} : Word.State).pc code := located_start hlaid
  cases n with
  | zero =>
    have hlistener : b.terminal.listener.received.toList = [] := by rw [h.untouched.listener]
    exact ⟨[], (code, {}), ⟨.here _, List.nil_prefix⟩, [], by rw [List.append_nil]; exact hlistener⟩
  | succ n =>
    obtain ⟨seen, s, flight, hserves⟩ := serves_later h hbound input willing n
    obtain ⟨code', -, hrun⟩ := run_of_words (stored_of_ready h hfit) hserves.run hlocated
    exact ⟨seen, _, ⟨hrun, ⟨_, hserves.input_eq.symm⟩⟩, heard_prefix hserves⟩

theorem halts_of_ready (hfair : ∀ n, ∃ m, n ≤ m ∧ willing m = true)
    {seen : List Exchange} {c : Code × Tape} (href : Reference code (starting b input) seen c)
    (hc : Code.step c = .halt) :
    ∃ n, ∀ m, n ≤ m → ((starting b input).run willing m).board.halted = true ∧
      ((starting b input).run willing m).board.chip.transmitter.busy = false := by
  have hstored := stored_of_ready h hfit
  have hlocated : Located (ws ++ [Word.halt]) ({} : Word.State).pc code := located_start hlaid
  obtain ⟨hrun, hin⟩ := href
  obtain ⟨s, hs, hahead⟩ := words_of_run hstored hrun hlocated.ahead
  obtain ⟨u, hu, hhalt, -⟩ := halt_of_run hstored hahead hc
  have hwords := hs.trans hu
  rw [List.append_nil] at hwords
  -- The words halt as the text does; the processor runs the words to their halt and rests.
  obtain ⟨m, flight, -, hend⟩ :=
    Serves.completes_run hbound hfair hwords (serves_first h hbound) hin
  obtain ⟨n, -, hrest⟩ := hend.comes_to_rest hbound hhalt
  exact ⟨n, hrest⟩

theorem result_of_ready {seen : List Exchange} {c : Code × Tape}
    (href : Reference code (starting b input) seen c) (hc : Code.step c = .halt) {n : Nat}
    (hhalted : ((starting b input).run willing n).board.halted = true)
    (hfree : ((starting b input).run willing n).board.chip.transmitter.busy = false) :
    ((starting b input).run willing n).board.terminal.listener.received.toList = sentBytes seen ∧
      ((starting b input).run willing n).board.terminal.listener.framingErrors = 0 ∧
      ((starting b input).run willing n).board.chip.core.tape.cells = c.2.cells ∧
      ((starting b input).run willing n).board.cpu.dp.toNat = c.2.head.val := by
  have hstored := stored_of_ready h hfit
  have hlocated : Located (ws ++ [Word.halt]) ({} : Word.State).pc code := located_start hlaid
  cases n with
  | zero =>
    -- Before the first step the processor is idle.
    have hphase : b.chip.core.cpu.halted = true := hhalted
    rw [h.untouched.cpu] at hphase
    exact absurd hphase (by decide)
  | succ n =>
    obtain ⟨seen', s, flight, hserves⟩ := serves_later h hbound input willing n
    obtain ⟨code', hs, hrun⟩ := run_of_words hstored hserves.run hlocated
    obtain ⟨hcode, -⟩ := halt_of_words hstored hs (halt_of_halted hserves hhalted)
    -- The input decides the run, so this is the run that the text has.
    obtain ⟨rfl, rfl⟩ := href.1.halt_unique hc hrun hcode href.2 ⟨_, hserves.input_eq.symm⟩
    obtain ⟨_, hplays, -⟩ := hserves.plays
    exact ⟨(hplays.speaks.complete hfree).symm, hserves.errors, hserves.tracks.shows.cells, hserves.tracks.shows.dp⟩

end

/-- Whatever text is compiled, uploaded and run, at whatever rate and with whatever gap
    between the frames of the terminal: the board does what the text means. -/
theorem performs_of_upload {source : Bytes} {words : List Word} {budget : Nat}
    (h : compile source = .ok words) (hb : b.Configured D) (hbound : 152 * D < 2 ^ 32)
    (hdone : (b.reset.resetTerminal.upload words budget).1 = true) (input : Bytes) (willing : Nat → Bool) :
    ∃ code, Code.ofSource? source = some code ∧
      Performs code ⟨(b.reset.resetTerminal.upload words budget).2.pulseRunStart, input⟩ willing := by
  obtain ⟨code, ws, hcode, hlaid, rfl⟩ := compile_laid h
  obtain ⟨hfit, hready⟩ := Board.ready_of_upload hb hdone
  exact ⟨code, hcode, heard_of_ready hlaid hready hfit hbound,
    fun hfair _ _ => halts_of_ready hlaid hready hfit hbound hfair,
    fun _ _ href hc _ => result_of_ready hlaid hready hfit hbound href hc⟩

/-- `,[.,]` at 12 MHz and 115200 baud, on an input that ends in a zero. -/
theorem performs_of_upload_echo :
    let b := Board.ofConfig {}
    let words : List Word := [160, 196, 128, 160, 253, 0]
    (compile [44, 91, 46, 44, 93] = .ok words ∧ b.Configured 7 ∧ 152 * 7 < 2 ^ 32 ∧
      (b.reset.resetTerminal.upload words 10000).1 = true) ∧
      ∃ code, Code.ofSource? [44, 91, 46, 44, 93] = some code ∧
        Performs code ⟨(b.reset.resetTerminal.upload words 10000).2.pulseRunStart, [72, 105, 0]⟩
          fun _ => true := by
  intro b words
  have hcompile : compile [44, 91, 46, 44, 93] = .ok words := rfl
  have hb : b.Configured 7 := ⟨rfl, rfl, by decide, by decide, by decide, by decide⟩
  have hdone : (b.reset.resetTerminal.upload words 10000).1 = true :=
    Board.upload_done hb (by decide) (by decide)
  exact ⟨⟨hcompile, hb, by decide, hdone⟩,
    performs_of_upload hcompile hb (by decide) hdone [72, 105, 0] fun _ => true⟩

end

end Driver

end BrainfuckBoard
