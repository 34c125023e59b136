import BrainfuckBoard.Proofs.Board.Play

/- A program that runs on the board, and a driver at the terminal who sends it bytes.
   The driver sends a byte only while the program waits for one and nothing else is on
   the way. `Serves` is what holds between two steps: the processor is in a state that
   the instruction set leads to, the bytes that have come in and gone out on the way
   there are the driver's and the terminal's, and one byte at most is on the wire in
   each direction. A step of the driver and of the board keeps it (`Serves.next`). -/
namespace BrainfuckBoard

/-- A board, and the bytes that are still to be sent to its program. -/
structure Driver where
  board : Board
  input : Bytes

/-- The program waits for a byte, and none is on its way. -/
def Board.hungry (b : Board) : Bool :=
  b.cpu.phase == .waitReceive && b.terminal.sender.idle && !b.chip.receiver.busy && !b.chip.receiver.valid

namespace Driver

/-- A willing driver sends the next byte when the board is hungry. -/
def feed (d : Driver) (willing : Bool) : Driver :=
  match d.input with
  | [] => d
  | byte :: rest => if willing && d.board.hungry then ⟨d.board.send [byte], rest⟩ else d

def step (d : Driver) : Driver := { d with board := d.board.step }

/-- `n` steps; `willing` says when the driver would send. -/
def run (d : Driver) (willing : Nat → Bool) : Nat → Driver
  | 0 => d
  | n + 1 => ((d.run willing n).feed (willing n)).step

end Driver

/-! ## What holds between two steps -/

/-- After the exchanges `seen` the program is in state `s`, and `flight` is the byte that
    is on its way to it. -/
structure Serves (D : Nat) (store : Vector Word 32) (input : Bytes) (d : Driver) (seen : List Exchange)
    (s : Word.State) (flight : Option UInt8) : Prop where
  run : Run (Word.step store) {} seen s
  tracks : Core.Tracks store d.board.chip.core s
  upload : d.board.pins.upload = false
  loader : d.board.chip.loader.phase = .idle
  wired : ∃ due, Board.Wired D d.board due ∧
    d.board.chip.receiver.byte?.toList ++ due.filterMap Frame.reading = flight.toList
  waits : flight ≠ none → d.board.cpu.phase = .waitReceive
  input_eq : input = receivedBytes seen ++ (flight.toList ++ d.input)
  speaking : ∃ unheard, Speaking D d.board.chip.baud.bitLag d.board.chip.transmitter d.board.terminal.listener
      unheard ∧ sentBytes seen = d.board.terminal.listener.received.toList ++ unheard
  errors : d.board.terminal.listener.framingErrors = 0

namespace Serves

open Board

section
variable {D : Nat} {store : Vector Word 32} {input : Bytes} {d : Driver} {seen : List Exchange}
  {s : Word.State} {flight : Option UInt8}

theorem awake (h : Serves D store input d seen s flight) : d.board.Awake := by
  obtain ⟨due, hwired, -⟩ := h.wired
  exact hwired.awake

/-- The byte on the wire, if there is one, stays there or is taken in this step. -/
theorem arrives (h : Serves D store input d seen s flight) {due : List Frame}
    (hflight : d.board.chip.receiver.byte?.toList ++ due.filterMap Frame.reading = flight.toList)
    {seen' : List Exchange} {t : Word.State}
    (hmoves : Core.Moves store d.board.chip.core d.board.signals s seen' t) :
    ∃ flight' : Option UInt8, due.filterMap Frame.reading = flight'.toList ∧
      flight.toList = receivedBytes seen' ++ flight'.toList ∧
      (flight' ≠ none → (d.board.chip.core.clock d.board.signals).cpu.phase = .waitReceive) := by
  have hreceived := received_signals h.upload
  have hwaits : d.board.signals.received ≠ none → d.board.chip.core.cpu.phase = .waitReceive := by
    rw [hreceived]
    intro hbyte
    apply h.waits
    rintro rfl
    obtain ⟨hnone, -⟩ := List.append_eq_nil_iff.mp hflight
    exact hbyte (Option.toList_eq_nil_iff.mp hnone)
  have hseen := hmoves.received h.tracks hwaits
  rw [hreceived] at hseen
  cases hbyte : d.board.chip.receiver.byte? with
  | none =>
    rw [hbyte, Option.toList_none] at hseen hflight
    refine ⟨flight, hflight, by rw [hseen, List.nil_append], ?_⟩
    -- Nothing has arrived, so what is on its way stays there and the program waits on.
    intro hf
    have hphase : d.board.chip.core.cpu.phase = .waitReceive := h.waits hf
    obtain ⟨next, hs⟩ := h.tracks.step_of_waitReceive hphase
    rcases hmoves.within_or_step with ⟨-, -, hp⟩ | hone
    · simp only [Core.Proceeds, hphase] at hp
      exact hp.1
    · obtain ⟨byte, rfl, -⟩ := hone.of_input hs
      cases hseen
  | some byte =>
    rw [hbyte, Option.toList_some] at hseen hflight
    obtain ⟨rfl, hdue⟩ : flight = some byte ∧ due.filterMap Frame.reading = [] := by
      cases flight with
      | none => cases hflight
      | some x =>
        obtain ⟨rfl, hdue⟩ := List.cons.inj hflight
        exact ⟨rfl, hdue⟩
    refine ⟨none, hdue, ?_, fun hf => absurd rfl hf⟩
    rw [hseen]
    rfl

theorem plays (h : Serves D store input d seen s flight) : ∃ due, Plays D store d.board seen s due ∧
    d.board.chip.receiver.byte?.toList ++ due.filterMap Frame.reading = flight.toList := by
  obtain ⟨due, hwired, hflight⟩ := h.wired
  have hspeaks : Speaks D d.board (sentBytes seen) :=
    ⟨hwired.awake, hwired.paced, hwired.period, h.speaking, h.errors⟩
  exact ⟨due, ⟨h.run, h.tracks, h.upload, h.loader, hwired, hspeaks⟩, hflight⟩

theorem of_plays {due : List Frame} (h : Plays D store d.board seen s due)
    (hflight : d.board.chip.receiver.byte?.toList ++ due.filterMap Frame.reading = flight.toList)
    (hwaits : flight ≠ none → d.board.cpu.phase = .waitReceive)
    (hinput : input = receivedBytes seen ++ (flight.toList ++ d.input)) :
    Serves D store input d seen s flight :=
  ⟨h.run, h.tracks, h.upload, h.loader, ⟨due, h.wired, hflight⟩, hwaits, hinput, h.speaks.speaking,
    h.speaks.errors⟩

/-- A step of the board. -/
theorem step (h : Serves D store input d seen s flight) (hbound : 152 * D < 2 ^ 32) :
    ∃ seen' t flight', Core.Moves store d.board.chip.core d.board.signals s seen' t ∧
      Serves D store input d.step (seen ++ seen') t flight' := by
  obtain ⟨due, hplays, hflight⟩ := h.plays
  obtain ⟨seen', t, due', hmoves, hnext, hshown, -⟩ := hplays.step hbound
  obtain ⟨flight', hdue, htaken, hwaits⟩ := h.arrives hflight hmoves
  refine ⟨seen', t, flight', hmoves, of_plays hnext ?_ ?_ ?_⟩
  · rw [← hdue]
    exact bytes_of_shown hshown
  · intro hf
    rw [Driver.step, Board.cpu, step_core h.awake]
    exact hwaits hf
  · calc input = receivedBytes seen ++ (flight.toList ++ d.input) := h.input_eq
      _ = receivedBytes seen ++ ((receivedBytes seen' ++ flight'.toList) ++ d.input) := by rw [htaken]
      _ = receivedBytes (seen ++ seen') ++ (flight'.toList ++ d.input) := by
        simp only [receivedBytes_append, List.append_assoc]

theorem hungry_iff {b : Board} : b.hungry = true ↔ b.cpu.phase = .waitReceive ∧
    b.terminal.sender.idle = true ∧ b.chip.receiver.busy = false ∧ b.chip.receiver.valid = false := by
  simp [hungry, and_assoc]

/-- While the board is hungry nothing is on its way. -/
theorem flight_of_hungry (h : Serves D store input d seen s flight) (hh : d.board.hungry = true) :
    flight = none := by
  obtain ⟨due, hwired, hflight⟩ := h.wired
  obtain ⟨-, hsender, hbusy, hvalid⟩ := hungry_iff.mp hh
  obtain rfl := hwired.idle hsender hbusy
  rw [Receiver.byte?, hvalid] at hflight
  exact Option.toList_eq_nil_iff.mp hflight.symm

theorem send (h : Serves D store input d seen s flight) (hh : d.board.hungry = true) {byte : UInt8}
    {rest : Bytes} (hinput : d.input = byte :: rest) :
    Serves D store input ⟨d.board.send [byte], rest⟩ seen s (some byte) := by
  have hnone := h.flight_of_hungry hh
  obtain ⟨due, hwired, hflight⟩ := h.wired
  obtain ⟨hphase, -, -, -⟩ := hungry_iff.mp hh
  have hin := h.input_eq
  rw [hnone] at hflight hin
  refine ⟨h.run, h.tracks, h.upload, h.loader, ⟨_, hwired.send [byte], ?_⟩, fun _ => hphase, ?_,
    h.speaking, h.errors⟩
  · rw [List.filterMap_append, filterMap_reading_send, ← List.append_assoc]
    exact congrArg (· ++ [byte]) hflight
  · rw [hin, hinput]
    rfl

theorem feed_cases (d : Driver) (willing : Bool) : d.feed willing = d ∨
    ∃ byte rest, d.input = byte :: rest ∧ d.board.hungry = true ∧
      d.feed willing = ⟨d.board.send [byte], rest⟩ := by
  unfold Driver.feed
  split
  · exact .inl rfl
  · next byte rest hinput =>
    split
    · next hsends => exact .inr ⟨byte, rest, hinput, (Bool.and_eq_true_iff.mp hsends).2, rfl⟩
    · exact .inl rfl

/-- While a byte is on its way no other is sent. -/
theorem feed_of_flight (h : Serves D store input d seen s flight) (hf : flight ≠ none) (willing : Bool) :
    d.feed willing = d := by
  rcases feed_cases d willing with heq | ⟨_, _, _, hhungry, _⟩
  · exact heq
  · exact absurd (h.flight_of_hungry hhungry) hf

/-- What is left to be sent says what is on its way. -/
theorem flight_of_input (h : Serves D store input d seen s flight) {byte : UInt8} {rest : Bytes}
    (hin : input = receivedBytes seen ++ byte :: rest) (hrest : d.input = rest) : flight = some byte := by
  have hin' := h.input_eq
  rw [hin, hrest] at hin'
  have hone := List.append_cancel_left hin'
  cases flight with
  | none => exact absurd hone (List.cons_ne_self _ _)
  | some x => rw [(List.cons.inj hone).1]

theorem feed (h : Serves D store input d seen s flight) (willing : Bool) :
    ∃ flight', Serves D store input (d.feed willing) seen s flight' := by
  rcases feed_cases d willing with heq | ⟨byte, rest, hinput, hh, heq⟩
  · exact ⟨flight, by rwa [heq]⟩
  · exact ⟨some byte, by rw [heq]; exact h.send hh hinput⟩

/-- A step of the driver and of the board. -/
theorem next (h : Serves D store input d seen s flight) (hbound : 152 * D < 2 ^ 32) (willing : Bool) :
    ∃ seen' t flight', Core.Moves store d.board.chip.core d.board.signals s seen' t ∧
      Serves D store input (d.feed willing).step (seen ++ seen') t flight' := by
  obtain ⟨flight₁, hfed⟩ := h.feed willing
  obtain ⟨seen', t, flight', hmoves, hnext⟩ := hfed.step hbound
  refine ⟨seen', t, flight', ?_, hnext⟩
  rcases feed_cases d willing with heq | ⟨byte, rest, -, -, heq⟩
  · rwa [heq] at hmoves
  · rw [heq] at hmoves
    exact hmoves

/-! ## From the start of a run -/

/-- The step that starts the run. -/
theorem start {words : Bytes} {b : Board} (h : b.Ready D words) (hbound : 152 * D < 2 ^ 32)
    (input : Bytes) :
    Serves D b.chip.core.program.cells input ⟨b.pulseRunStart.step, input⟩ [] {} none := by
  obtain ⟨hplays, hbyte⟩ := plays_start h hbound
  exact of_plays hplays (by rw [hbyte]; rfl) (fun hn => absurd rfl hn) rfl

end

end Serves

end BrainfuckBoard
