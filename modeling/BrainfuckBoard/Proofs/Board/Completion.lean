import BrainfuckBoard.Proofs.Board.Driver

/- Every instruction comes to its end. If it did not, the program would be in one state
   from some step on (`Stuck`): it would get to one of the waits, and the wait would
   last. But the transmitter gets free (`gets_free`), and a driver who is willing again
   and again sends the byte that is waited for, which then arrives. So the board gets to
   the end of every run that the instruction set has (`completes_run`). -/
namespace BrainfuckBoard

/-- The processor waits for a byte to go out or to come in, or it has halted. -/
def Board.Waits (b : Board) : Prop :=
  b.cpu.phase = .waitSend ∨ b.cpu.phase = .waitReceive ∨ b.cpu.phase = .halt

namespace Serves

open Board

section
variable {D : Nat} {store : Vector Word 32} {input : Bytes} {d : Driver} {willing : Nat → Bool}
  {seen : List Exchange} {s : Word.State} {flight : Option UInt8} {n m : Nat}

/-! ## Runs -/

theorem feed_chip (d : Driver) (w : Bool) :
    (d.feed w).board.chip = d.board.chip ∧ (d.feed w).board.signals = d.board.signals := by
  rcases feed_cases d w with heq | ⟨byte, rest, -, -, heq⟩
  · rw [heq]
    exact ⟨rfl, rfl⟩
  · rw [heq]
    exact ⟨rfl, rfl⟩

theorem feed_kept (d : Driver) (w : Bool) : Kept d.board (d.feed w).board := by
  rcases feed_cases d w with heq | ⟨byte, rest, -, -, heq⟩
  · rw [heq]
    exact ⟨id, rfl, rfl, rfl⟩
  · rw [heq]
    exact ⟨fun hb => ⟨hb.resetPin, hb.released⟩, rfl, rfl, rfl⟩

/-- As long as the driver sends nothing, the board makes its own steps. -/
theorem undisturbed_run (hquiet : ∀ k, n ≤ k → (d.run willing k).feed (willing k) = d.run willing k) :
    Undisturbed fun k => (d.run willing (n + k)).board := by
  intro k
  refine ⟨(d.run willing (n + k)).board, .refl _, ?_⟩
  show (((d.run willing (n + k)).feed (willing (n + k))).step).board = _
  rw [hquiet (n + k) (Nat.le_add_right n k)]
  rfl

/-- The chip after the next step of the driver. -/
theorem run_chip (h : Serves D store input (d.run willing n) seen s flight) :
    ∃ pins, (d.run willing (n + 1)).board.chip = (d.run willing n).board.chip.clock pins ∧
      (d.run willing n).board.chip.coreInputs pins = (d.run willing n).board.signals := by
  obtain ⟨_, hfed⟩ := h.feed (willing n)
  obtain ⟨hchip, hsignals⟩ := feed_chip (d.run willing n) (willing n)
  refine ⟨_, (hfed.awake.step_chip).trans (by rw [hchip]), ?_⟩
  rw [← hsignals, ← hchip]
  rfl

theorem run_core (h : Serves D store input (d.run willing n) seen s flight) :
    (d.run willing (n + 1)).board.chip.core =
      (d.run willing n).board.chip.core.clock (d.run willing n).board.signals := by
  obtain ⟨pins, hchip, hsignals⟩ := h.run_chip
  rw [hchip, ← hsignals]
  rfl

theorem later (h : Serves D store input (d.run willing n) seen s flight) (hbound : 152 * D < 2 ^ 32) :
    ∀ k, ∃ seen' t flight', Serves D store input (d.run willing (n + k)) (seen ++ seen') t flight'
  | 0 => ⟨[], s, flight, by rwa [List.append_nil]⟩
  | k + 1 => by
    obtain ⟨seen₁, t, _, hk⟩ := later h hbound k
    obtain ⟨seen₂, u, flight', -, hnext⟩ := hk.next hbound (willing (n + k))
    exact ⟨seen₁ ++ seen₂, u, flight', by rwa [← List.append_assoc]⟩

/-- The transmitter does not stay busy. -/
theorem gets_free
    (h : ∀ m, n ≤ m → ∃ seen s flight, Serves D store input (d.run willing m) seen s flight) :
    ∃ m, n ≤ m ∧ (d.run willing m).board.chip.transmitter.busy = false := by
  have hspeaks : ∀ k, ∃ sent, Speaks D (d.run willing (n + k)).board sent := by
    intro k
    obtain ⟨_, _, _, hk⟩ := h (n + k) (Nat.le_add_right n k)
    obtain ⟨_, hplays, -⟩ := hk.plays
    exact ⟨_, hplays.speaks⟩
  obtain ⟨k, -, hfree⟩ := exists_free hspeaks fun k => ⟨_, feed_kept _ _, rfl⟩
  exact ⟨n + k, Nat.le_add_right n k, hfree⟩

/-! ## A program that does not get on -/

/-- From step `n` on the program stays in one state, and every step is within the
    instruction. -/
def Stuck (D : Nat) (store : Vector Word 32) (input : Bytes) (d : Driver) (willing : Nat → Bool)
    (n : Nat) (seen : List Exchange) (s : Word.State) : Prop :=
  ∀ m, n ≤ m → (∃ flight, Serves D store input (d.run willing m) seen s flight) ∧
    (d.run willing m).board.chip.core.Proceeds (d.run willing m).board.signals

/-- The instruction that is under way comes to its end in some step. -/
def Completes (D : Nat) (store : Vector Word 32) (input : Bytes) (d : Driver) (willing : Nat → Bool)
    (n : Nat) (seen : List Exchange) (s : Word.State) : Prop :=
  ∃ m seen' t flight, n ≤ m ∧ OneStep (Word.step store) s seen' t ∧
    Serves D store input (d.run willing m) (seen ++ seen') t flight

theorem completes_or_stuck (h : Serves D store input (d.run willing n) seen s flight)
    (hbound : 152 * D < 2 ^ 32) :
    Completes D store input d willing n seen s ∨ Stuck D store input d willing n seen s := by
  apply Classical.byContradiction
  intro hneither
  obtain ⟨hnot, hstuck⟩ := not_or.mp hneither
  have hwithin : ∀ m flight, n ≤ m → Serves D store input (d.run willing m) seen s flight →
      (∃ flight', Serves D store input (d.run willing (m + 1)) seen s flight') ∧
        (d.run willing m).board.chip.core.Proceeds (d.run willing m).board.signals := by
    intro m flight hm hs
    obtain ⟨seen', t, flight', hmoves, hnext⟩ := hs.next hbound (willing m)
    rcases hmoves.within_or_step with ⟨rfl, rfl, hp⟩ | hone
    · rw [List.append_nil] at hnext
      exact ⟨⟨flight', hnext⟩, hp⟩
    · exact absurd ⟨m + 1, seen', t, flight', by omega, hone, hnext⟩ hnot
  have hstays : ∀ k, ∃ flight', Serves D store input (d.run willing (n + k)) seen s flight' := by
    intro k
    induction k with
    | zero => exact ⟨flight, h⟩
    | succ k ih =>
      obtain ⟨flight', hk⟩ := ih
      exact (hwithin (n + k) flight' (by omega) hk).1
  apply hstuck
  intro m hm
  obtain ⟨k, rfl⟩ := Nat.exists_eq_add_of_le hm
  obtain ⟨flight', hk⟩ := hstays k
  exact ⟨⟨flight', hk⟩, (hwithin (n + k) flight' hm hk).2⟩

section
variable (h : Stuck D store input d willing n seen s)
include h

theorem Stuck.later (hm : n ≤ m) : Stuck D store input d willing m seen s := fun k hk => h k (by omega)

/-- It comes to a wait, or to a halt. -/
theorem Stuck.waits : ∃ m, n ≤ m ∧ (d.run willing m).board.Waits := by
  suffices hrank : ∀ r m, n ≤ m → Core.rank (d.run willing m).board.cpu.phase = r →
      ∃ m', m ≤ m' ∧ (d.run willing m').board.Waits from hrank _ n (Nat.le_refl n) rfl
  intro r
  induction r using Nat.strongRecOn with
  | ind r ih =>
    rintro m hm rfl
    obtain ⟨⟨flight, hs⟩, hp⟩ := h m hm
    have hcloser (hlt : Core.rank (d.run willing (m + 1)).board.cpu.phase <
        Core.rank (d.run willing m).board.cpu.phase) :
        ∃ m', m ≤ m' ∧ (d.run willing m').board.Waits := by
      obtain ⟨m', hm', hwait⟩ := ih _ hlt (m + 1) (by omega) rfl
      exact ⟨m', by omega, hwait⟩
    have hpre := hs.tracks.prepared
    rw [Board.cpu, hs.run_core] at hcloser
    cases hcase : (d.run willing m).board.chip.core.cpu.phase with
    | waitSend => exact ⟨m, Nat.le_refl m, .inl hcase⟩
    | waitReceive => exact ⟨m, Nat.le_refl m, .inr (.inl hcase)⟩
    | halt => exact ⟨m, Nat.le_refl m, .inr (.inr hcase)⟩
    | idle =>
      simp only [Core.Prepared, hcase] at hpre
    | _ =>
      -- In every other phase a step that stays within the instruction gets closer to its end.
      simp only [Core.Proceeds, hcase] at hp
      apply hcloser
      rw [Board.cpu, hcase]
      exact hp

/-- A wait lasts. -/
theorem Stuck.stays (hwait : (d.run willing n).board.Waits) :
    ∀ k, (d.run willing (n + k)).board.cpu.phase = (d.run willing n).board.cpu.phase
  | 0 => rfl
  | k + 1 => by
    have hk := Stuck.stays hwait k
    obtain ⟨⟨flight, hs⟩, hp⟩ := h (n + k) (by omega)
    rw [← Nat.add_assoc, Board.cpu, hs.run_core]
    rw [Waits, ← hk] at hwait
    rw [← hk]
    rcases hwait with hcase | hcase | hcase
    · have hcase' : (d.run willing (n + k)).board.chip.core.cpu.phase = .waitSend := hcase
      simp only [Core.Proceeds, hcase'] at hp
      exact hp.1.trans hcase.symm
    · have hcase' : (d.run willing (n + k)).board.chip.core.cpu.phase = .waitReceive := hcase
      simp only [Core.Proceeds, hcase'] at hp
      exact hp.1.trans hcase.symm
    · have hcase' : (d.run willing (n + k)).board.chip.core.cpu.phase = .halt := hcase
      simp only [Core.Proceeds, hcase'] at hp
      exact hp.trans hcase.symm

theorem Stuck.not_sending (hp : (d.run willing n).board.cpu.phase = .waitSend) : False := by
  obtain ⟨m, hm, hfree⟩ := gets_free (n := n) fun m hm => by
    obtain ⟨⟨flight, hs⟩, -⟩ := h m hm
    exact ⟨seen, s, flight, hs⟩
  obtain ⟨k, rfl⟩ := Nat.exists_eq_add_of_le hm
  have hphase : (d.run willing (n + k)).board.chip.core.cpu.phase = .waitSend :=
    (h.stays (.inl hp) k).trans hp
  have hproceeds := (h (n + k) hm).2
  simp only [Core.Proceeds, hphase] at hproceeds
  exact absurd (hfree.symm.trans hproceeds.2) (by decide)

/-! ## The byte that is waited for -/

theorem Stuck.waiting (hp : (d.run willing n).board.cpu.phase = .waitReceive) (hm : n ≤ m) :
    (d.run willing m).board.cpu.phase = .waitReceive ∧
      (d.run willing m).board.chip.receiver.byte? = none := by
  obtain ⟨k, rfl⟩ := Nat.exists_eq_add_of_le hm
  have hphase : (d.run willing (n + k)).board.chip.core.cpu.phase = .waitReceive :=
    (h.stays (.inr (.inl hp)) k).trans hp
  obtain ⟨⟨flight, hs⟩, hproceeds⟩ := h (n + k) hm
  simp only [Core.Proceeds, hphase] at hproceeds
  exact ⟨hphase, (received_signals hs.upload).symm.trans hproceeds.2⟩

/-- If nothing is sent from some step on, the board is hungry in the end. -/
theorem Stuck.gets_hungry (hp : (d.run willing n).board.cpu.phase = .waitReceive)
    (hquiet : ∀ k, n ≤ k → (d.run willing k).feed (willing k) = d.run willing k) :
    ∃ m, n ≤ m ∧ ∀ k, (d.run willing (m + k)).board.hungry = true := by
  obtain ⟨⟨flight, hs⟩, -⟩ := h n (Nat.le_refl n)
  obtain ⟨due, hwired, -⟩ := hs.wired
  obtain ⟨K, -, hrest⟩ := (undisturbed_run hquiet).rests hwired
  refine ⟨n + K, Nat.le_add_right n K, fun k => ?_⟩
  rw [Nat.add_assoc]
  obtain ⟨hphase, hbyte⟩ := h.waiting hp (m := n + (K + k)) (Nat.le_add_right n _)
  obtain ⟨hsender, hbusy⟩ := hrest (K + k) (Nat.le_add_right K k)
  refine hungry_iff.mpr ⟨hphase, hsender, hbusy, ?_⟩
  cases hv : (d.run willing (n + (K + k))).board.chip.receiver.valid with
  | false => rfl
  | true => simp [Receiver.byte?, hv] at hbyte

/-- A driver who is willing again and again sends what is left to be sent. -/
theorem Stuck.sends (hp : (d.run willing n).board.cpu.phase = .waitReceive)
    (hfair : ∀ n, ∃ m, n ≤ m ∧ willing m = true) (hpending : receivedBytes seen ≠ input) :
    ∃ k byte, n ≤ k ∧ (d.run willing k).board.hungry = true ∧
      (d.run willing k).input = byte :: (d.run willing (k + 1)).input := by
  apply Classical.byContradiction
  intro hnever
  have hquiet : ∀ k, n ≤ k → (d.run willing k).feed (willing k) = d.run willing k := by
    intro k hk
    rcases feed_cases (d.run willing k) (willing k) with heq | ⟨byte, rest, hinput, hhungry, heq⟩
    · exact heq
    · have hrest : (d.run willing (k + 1)).input = rest := congrArg Driver.input heq
      exact absurd ⟨k, byte, hk, hhungry, by rw [hrest]; exact hinput⟩ hnever
  obtain ⟨m, hm, hhungry⟩ := h.gets_hungry hp hquiet
  obtain ⟨j, hj, hwilling⟩ := hfair m
  obtain ⟨k, rfl⟩ := Nat.exists_eq_add_of_le hj
  obtain ⟨⟨flight, hs⟩, -⟩ := h (m + k) (by omega)
  have hin := hs.input_eq
  rw [hs.flight_of_hungry (hhungry k)] at hin
  cases hinput : (d.run willing (m + k)).input with
  | nil =>
    rw [hinput] at hin
    simp only [Option.toList_none, List.append_nil] at hin
    exact hpending hin.symm
  | cons byte rest =>
    have hsend := hquiet (m + k) (by omega)
    simp only [Driver.feed, hinput, hwilling, hhungry k, Bool.and_true, if_true] at hsend
    have hrest := congrArg Driver.input hsend
    rw [hinput] at hrest
    exact List.cons_ne_self _ _ hrest.symm

/-- A byte that has been sent stays on its way as long as the program does not take it. -/
theorem Stuck.stays_on_way {byte : UInt8} {rest : Bytes}
    (hin : input = receivedBytes seen ++ byte :: rest) (hrest : (d.run willing n).input = rest) :
    ∀ k, (d.run willing (n + k)).input = rest
  | 0 => hrest
  | k + 1 => by
    have hk := Stuck.stays_on_way hin hrest k
    obtain ⟨⟨flight, hs⟩, -⟩ := h (n + k) (by omega)
    have hkept := hs.feed_of_flight (by rw [hs.flight_of_input hin hk]; exact nofun) (willing (n + k))
    exact (congrArg Driver.input hkept).trans hk

theorem Stuck.not_receiving (hp : (d.run willing n).board.cpu.phase = .waitReceive)
    (hfair : ∀ n, ∃ m, n ≤ m ∧ willing m = true) (hpending : receivedBytes seen ≠ input) : False := by
  obtain ⟨k, byte, hk, hhungry, hinput⟩ := h.sends hp hfair hpending
  obtain ⟨⟨_, hsending⟩, -⟩ := h k hk
  have hin := hsending.input_eq
  rw [hsending.flight_of_hungry hhungry, hinput] at hin
  -- From here on the byte is on its way, so nothing more is sent, and yet it arrives.
  have hlater := h.later (m := k + 1) (by omega)
  have hway := hlater.stays_on_way hin rfl
  obtain ⟨m, hm, hend⟩ := hlater.gets_hungry (h.waiting hp (m := k + 1) (by omega)).1 fun j hj => by
    obtain ⟨i, rfl⟩ := Nat.exists_eq_add_of_le hj
    obtain ⟨⟨_, hs⟩, -⟩ := h (k + 1 + i) (by omega)
    exact hs.feed_of_flight (by rw [hs.flight_of_input hin (hway i)]; exact nofun) _
  obtain ⟨i, rfl⟩ := Nat.exists_eq_add_of_le hm
  obtain ⟨⟨_, hs⟩, -⟩ := h (k + 1 + i) (by omega)
  have hflight := hs.flight_of_input hin (hway i)
  rw [hs.flight_of_hungry (hend 0)] at hflight
  cases hflight

end

/-! ## To the halt -/

theorem completes (h : Serves D store input (d.run willing n) seen s flight) (hbound : 152 * D < 2 ^ 32)
    (hfair : ∀ n, ∃ m, n ≤ m ∧ willing m = true) (hne : Word.step store s ≠ .halt)
    (hin : ∀ next, Word.step store s = .input next → receivedBytes seen ≠ input) :
    Completes D store input d willing n seen s := by
  rcases h.completes_or_stuck hbound with hdone | hstuck
  · exact hdone
  · obtain ⟨m, hm, hwait⟩ := hstuck.waits
    have hlater := hstuck.later hm
    obtain ⟨⟨flight', hs⟩, -⟩ := hstuck m hm
    rcases hwait with hp | hp | hp
    · exact (hlater.not_sending hp).elim
    · obtain ⟨next, hs'⟩ := hs.tracks.step_of_waitReceive hp
      exact (hlater.not_receiving hp hfair (hin next hs')).elim
    · have hp' : (d.run willing m).board.chip.core.cpu.phase = .halt := hp
      have hhalt := hs.tracks.prepared
      simp only [Core.Prepared, hp'] at hhalt
      exact absurd (Core.step_halt hhalt) hne

/-- The program takes a step that fits the input. -/
theorem completes_step (h : Serves D store input (d.run willing n) seen s flight) (hbound : 152 * D < 2 ^ 32)
    (hfair : ∀ n, ∃ m, n ≤ m ∧ willing m = true) {now later : List Exchange} {t : Word.State}
    (hone : OneStep (Word.step store) s now t) (hin : receivedBytes (seen ++ (now ++ later)) <+: input) :
    ∃ m flight', n ≤ m ∧ Serves D store input (d.run willing m) (seen ++ now) t flight' := by
  rw [receivedBytes_append] at hin
  obtain ⟨after, hafter⟩ := hin
  have hasked : ∀ next, Word.step store s = .input next → receivedBytes seen ≠ input := by
    intro next hs heq
    obtain ⟨byte, rfl, -⟩ := hone.of_input hs
    have hlength := congrArg List.length (hafter.trans heq.symm)
    simp [receivedBytes] at hlength
  obtain ⟨m, now', t', flight', hm, hone', hnext⟩ := h.completes hbound hfair hone.ne_halt hasked
  -- What the program has taken is the next of the input, and this decides the step.
  have htaken := hafter.trans hnext.input_eq
  rw [receivedBytes_append seen now', List.append_assoc, List.append_assoc, receivedBytes_append] at htaken
  have hrest := List.append_cancel_left htaken
  rw [List.append_assoc] at hrest
  obtain ⟨rfl, rfl⟩ := hone.unique hone' (List.prefix_append _ _) ⟨_, hrest.symm⟩
  exact ⟨m, flight', hm, hnext⟩

/-- A run of the instruction set from the state that the program is in. -/
theorem completes_run (hbound : 152 * D < 2 ^ 32) (hfair : ∀ n, ∃ m, n ≤ m ∧ willing m = true)
    {rest : List Exchange} {u : Word.State} (hrun : Run (Word.step store) s rest u) :
    ∀ {n : Nat} {seen : List Exchange} {flight : Option UInt8},
    Serves D store input (d.run willing n) seen s flight → receivedBytes (seen ++ rest) <+: input →
    ∃ m flight', n ≤ m ∧ Serves D store input (d.run willing m) (seen ++ rest) u flight' := by
  induction hrun using Run.byStep with
  | here =>
    intro n seen flight h _
    exact ⟨n, flight, Nat.le_refl n, by rwa [List.append_nil]⟩
  | next hone _ ih =>
    intro n seen flight h hin
    obtain ⟨m, flight', hm, hnext⟩ := h.completes_step hbound hfair hone hin
    rw [← List.append_assoc] at hin ⊢
    obtain ⟨k, flight'', hk, hend⟩ := ih hnext hin
    exact ⟨k, flight'', Nat.le_trans hm hk, hend⟩

theorem busy_after_halt (h : Serves D store input (d.run willing n) seen s flight)
    (hp : (d.run willing n).board.cpu.phase = .halt)
    (hb : (d.run willing n).board.chip.transmitter.busy = false) :
    (d.run willing (n + 1)).board.chip.transmitter.busy = false := by
  obtain ⟨pins, hchip, hsignals⟩ := h.run_chip
  obtain ⟨unheard, hspeaking, -⟩ := h.speaking
  have hp' : (d.run willing n).board.chip.core.cpu.phase = .halt := hp
  have hsent : (d.run willing n).board.chip.sent? pins = none := by
    simp [Chip.sent?, Core.requests, Core.cpuStep, Cpu.step, hp']
  rw [hchip, (Chip.clock_rest (hspeaking.rests hb) hsent).1]

/-- Once the processor has halted, the transmitter gets free, and nothing makes it busy again. -/
theorem Stuck.rests (h : Stuck D store input d willing n seen s)
    (hp : (d.run willing n).board.cpu.phase = .halt) : ∃ m, n ≤ m ∧ ∀ k, m ≤ k →
      (d.run willing k).board.halted = true ∧ (d.run willing k).board.chip.transmitter.busy = false := by
  have hhalts : ∀ k, n ≤ k → (d.run willing k).board.cpu.phase = .halt := by
    intro k hk
    obtain ⟨j, rfl⟩ := Nat.exists_eq_add_of_le hk
    exact (h.stays (.inr (.inr hp)) j).trans hp
  obtain ⟨free, hfree, hnotbusy⟩ := gets_free (n := n) fun k hk => by
    obtain ⟨⟨flight, hs⟩, -⟩ := h k hk
    exact ⟨seen, s, flight, hs⟩
  have hstays : ∀ k, free ≤ k → (d.run willing k).board.chip.transmitter.busy = false := by
    intro k hk
    induction hk with
    | refl => exact hnotbusy
    | step hk ih =>
      have hlater := Nat.le_trans hfree hk
      obtain ⟨⟨_, hs⟩, -⟩ := h _ hlater
      exact hs.busy_after_halt (hhalts _ hlater) ih
  refine ⟨free, hfree, fun k hk => ⟨?_, hstays k hk⟩⟩
  simp [Board.halted, Cpu.halted, hhalts k (by omega)]

/-- In a state that halts the processor halts, the transmitter gets free, and both stay
    so. -/
theorem comes_to_rest (h : Serves D store input (d.run willing n) seen s flight) (hbound : 152 * D < 2 ^ 32)
    (hs : Word.step store s = .halt) : ∃ m, n ≤ m ∧ ∀ k, m ≤ k →
      (d.run willing k).board.halted = true ∧ (d.run willing k).board.chip.transmitter.busy = false := by
  have hstuck : Stuck D store input d willing n seen s := by
    rcases h.completes_or_stuck hbound with ⟨_, _, _, _, _, hone, _⟩ | hstuck
    · exact absurd hs hone.ne_halt
    · exact hstuck
  -- Of the places where a program can be stuck, only the halt is one of a state that halts.
  obtain ⟨m, hm, hwait⟩ := hstuck.waits
  have hlater := hstuck.later hm
  rcases hwait with hp | hp | hp
  · exact (hlater.not_sending hp).elim
  · obtain ⟨⟨_, hserves⟩, -⟩ := hstuck m hm
    obtain ⟨next, hs'⟩ := hserves.tracks.step_of_waitReceive hp
    rw [hs] at hs'
    cases hs'
  · obtain ⟨k, hk, hrests⟩ := hlater.rests hp
    exact ⟨k, Nat.le_trans hm hk, hrests⟩

end

end Serves

end BrainfuckBoard
