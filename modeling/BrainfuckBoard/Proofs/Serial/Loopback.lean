import BrainfuckBoard.Circuit.Chip
import BrainfuckBoard.Circuit.SerialLoop
import BrainfuckBoard.Proofs.Serial.Reception
import BrainfuckBoard.Proofs.Serial.Transmission

/- The serial parts of the chip with the line led back from the transmitter to the receiver.
   Both run on the baud clock, the transmitter on a counter that starts with the frame and
   the receiver on one that never stops. `Carries` says which bytes the levels of the line
   are, and `Catching` where the receiver is in them: it looks into the right bit at every
   divisor, wherever its counter stands, and when the start bit is a step short, because a
   byte has been handed over in the first free step, it has left the frame in time for the
   next one (`Catching.clock`). So whatever is offered, each byte that is taken comes out
   once and in order (`lossless_of_start`). -/
namespace BrainfuckBoard

/-! ## What goes in and what comes out -/

/-- The serial parts of a chip. -/
def Chip.serialLoop (c : Chip) : SerialLoop :=
  { baud := c.baud, transmitter := c.transmitter, receiver := c.receiver }

/-- A chip whose two pins are tied together is such a loop, with what its program sends. -/
theorem Chip.serialLoop_clock {c : Chip} {pins : Pins} (h : pins.rx = c.transmitter.line) :
    (c.clock pins).serialLoop = c.serialLoop.clock (c.sent? pins) := by
  simp only [serialLoop, clock, SerialLoop.clock, h]

namespace SerialLoop

/-- The byte that is offered in a step, if the transmitter is free. -/
def taken? (s : SerialLoop) (offered : Option UInt8) : Option UInt8 :=
  if s.transmitter.busy then none else offered

/-- The bytes that are offered to a free transmitter in the first `n` steps. -/
def taken (s : SerialLoop) (offers : Nat → Option UInt8) (n : Nat) : Bytes :=
  (List.range n).flatMap fun k => ((s.run offers k).taken? (offers k)).toList

/-- The bytes that the receiver has flagged after each of the first `n` steps. -/
def flagged (s : SerialLoop) (offers : Nat → Option UInt8) (n : Nat) : Bytes :=
  (List.range n).flatMap fun k => (s.run offers (k + 1)).receiver.byte?.toList

end SerialLoop

/-! ## The line -/

namespace Transmitter

section
variable {D e : Nat} {byte : UInt8}

/-- The levels of a byte, and one more, since the next byte cannot follow at once. -/
def signal (D : Nat) (byte : UInt8) : List Bool :=
  (List.range (160 * D + 1)).map fun e => (frame byte).level (e / (16 * D))

theorem length_signal : (signal D byte).length = 160 * D + 1 := by
  simp [signal]

theorem drop_signal (he : e ≤ 160 * D) :
    (signal D byte).drop e = (frame byte).level (e / (16 * D)) :: (signal D byte).drop (e + 1) := by
  rw [List.drop_eq_getElem_cons (by rw [length_signal]; omega)]
  simp [signal]

/-- The line is high from the stop bit on. -/
theorem high_of_mem_drop (hD : 0 < D) (he : 144 * D ≤ e) {level : Bool}
    (h : level ∈ (signal D byte).drop e) : level = true :=
  Frame.high_of_mem_drop rfl (Nat.mul_pos (by decide) hD) (by omega) h

end

end Transmitter

namespace SerialLoop

open Transmitter (signal)

/-- The levels of a line that is high but for some bytes. A byte may lack the first step of its
    start bit. -/
inductive Carries (D : Nat) : List Bool → List Frame → Prop
  | nothing : Carries D [] []
  | high {levels : List Bool} {due : List Frame} (h : Carries D levels due) :
      Carries D (true :: levels) due
  | byte (byte : UInt8) (short : Nat) (hshort : short ≤ 1) {levels : List Bool} {due : List Frame}
      (h : Carries D levels due) :
      Carries D ((signal D byte).drop short ++ levels) (Transmitter.frame byte :: due)

/-- The receiver's phase, the levels it has yet to see, and the bytes that are due, `lag` steps
    after the last tick. In a byte the next level is at `e`, and `c` is the delay from the fall of
    the line to the first step that was counted. -/
inductive Catching (D lag : Nat) : Receiver.Phase → List Bool → List Frame → Prop
  | quiet {levels : List Bool} {due : List Frame} (h : Carries D levels due) :
      Catching D lag .idle levels due
  | hearing {phase : Receiver.Phase} (byte : UInt8) (short e c : Nat) {rest : List Bool}
      {due : List Frame} (hhears : phase.Hears (Transmitter.frame byte)) (hshort : short ≤ 1) (hc : c < D)
      (he : e + c = phase.ticks * D + lag + short) (h : Carries D rest due) :
      Catching D lag phase ((signal D byte).drop e ++ rest) (phase.owed (Transmitter.frame byte) ++ due)

section
variable {D lag : Nat} {phase : Receiver.Phase} {r : Receiver} {levels rest more : List Bool}
  {due due' : List Frame} {line ticked : Bool}

theorem Carries.append (h : Carries D levels due) (h' : Carries D more due') :
    Carries D (levels ++ more) (due ++ due') := by
  induction h with
  | nothing => exact h'
  | high _ ih => exact .high ih
  | byte byte short hshort _ ih =>
    rw [List.append_assoc]
    exact .byte byte short hshort ih

theorem Carries.after_high (h : Carries D levels due) (hhigh : ∀ level ∈ more, level = true) :
    Carries D (more ++ levels) due := by
  induction more with
  | nil => exact h
  | cons level more ih =>
    obtain ⟨rfl, hrest⟩ := List.forall_mem_cons.mp hhigh
    exact .high (ih hrest)

theorem Catching.append (h : Catching D lag phase levels due) (h' : Carries D more due') :
    Catching D lag phase (levels ++ more) (due ++ due') := by
  cases h with
  | quiet h => exact quiet (h.append h')
  | hearing byte short e c hhears hshort hc he h =>
    rw [List.append_assoc, List.append_assoc]
    exact hearing byte short e c hhears hshort hc he (h.append h')

/-- A byte is longer than the two registers and the line. -/
theorem Carries.nothing_of_short (h : Carries D levels due) (hD : 0 < D) (hlen : levels.length ≤ 3) :
    due = [] ∧ ∀ level ∈ levels, level = true := by
  induction h with
  | nothing => exact ⟨rfl, nofun⟩
  | high _ ih =>
    obtain ⟨hdue, hhigh⟩ := ih (Nat.le_of_succ_le hlen)
    exact ⟨hdue, List.forall_mem_cons.mpr ⟨rfl, hhigh⟩⟩
  | byte byte short hshort _ ih =>
    simp only [List.length_append, List.length_drop, Transmitter.length_signal] at hlen
    omega

/-! ## The receiver in a step -/

/-- What a step of the receiver makes of the bytes that are due. -/
def Passes (D lag : Nat) (r : Receiver) (rest : List Bool) (due : List Frame) : Prop :=
  ∃ due', Catching D lag r.phase rest due' ∧ r.shown ++ due'.map Frame.reading = due.map Frame.reading

theorem passes_silent (h : Catching D lag r.phase rest due) (hv : r.valid = false)
    (he : r.frameError = false) : Passes D lag r rest due :=
  ⟨due, h, by rw [Receiver.shown_eq_nil hv he]; rfl⟩

theorem clock_quiet {lag' : Nat} (h : Carries D (r.second :: rest) due) (hlag₀ : 0 < lag')
    (hlag : lag' ≤ D) (hp : r.phase = .idle) : Passes D lag' (r.clock line ticked) rest due := by
  generalize hw : r.second :: rest = levels at h
  cases h with
  | nothing => exact absurd hw (List.cons_ne_nil _ _)
  | high h =>
    obtain ⟨hs, rfl⟩ := List.cons.inj hw
    rw [Receiver.clock_idle_high hp hs]
    apply passes_silent _ rfl rfl
    rw [show (r.shifted line).phase = .idle from hp]
    exact .quiet h
  | byte byte short hshort h =>
    -- The fall is noticed in this step, and counted from the next tick on.
    have hslot : short / (16 * D) = 0 := Nat.div_eq_of_lt (by omega)
    rw [Transmitter.drop_signal (by omega), hslot, Frame.level_start, List.cons_append] at hw
    obtain ⟨hs, rfl⟩ := List.cons.inj hw
    rw [Receiver.clock_idle_low hp hs]
    apply passes_silent _ rfl rfl
    exact .hearing byte short (short + 1) (lag' - 1) (Nat.zero_le _) hshort (by omega)
      (by simp only [Receiver.Phase.ticks]; omega) h

/-- Where the receiver looks, `8 + 16 * m` ticks after the line fell, is bit `m`. -/
theorem slot_eq {e c m short : Nat} (hc : c < D) (hshort : short ≤ 1)
    (he : e + c = (8 + 16 * m) * D + short) : e / (16 * D) = m := by
  rw [Nat.add_mul, Nat.mul_assoc] at he
  have hm : m * (16 * D) = 16 * (m * D) := Nat.mul_left_comm _ _ _
  apply Nat.div_eq_of_lt_le
  · omega
  · rw [Nat.succ_mul]
    omega

theorem clock_hearing {byte : UInt8} {short e c : Nat} (hhears : r.phase.Hears (Transmitter.frame byte))
    (hshort : short ≤ 1) (hc : c < D) (he : e + c = r.phase.ticks * D + lag + short)
    (h : Carries D more due) (hlag : lag ≤ D) (ht : ticked = true ↔ lag = D)
    (hw : (signal D byte).drop e ++ more = r.second :: rest) :
    Passes D (if ticked then 1 else lag + 1) (r.clock line ticked) rest
      (r.phase.owed (Transmitter.frame byte) ++ due) := by
  have hticks := Nat.mul_le_mul_right D hhears.ticks_le
  rw [Transmitter.drop_signal (by omega), List.cons_append, List.cons.injEq] at hw
  obtain ⟨hlevel, rfl⟩ := hw
  have hslot : ∀ m, m ≤ 9 → r.phase.ticks * D + lag = (8 + 16 * m) * D →
      r.second = (Transmitter.frame byte).level m := by
    intro m _ hmiddle
    rw [← hlevel, slot_eq hc hshort (by rw [he, hmiddle])]
  rcases @Receiver.Phase.Hears.clock_paced r (Transmitter.frame byte) line ticked D lag hhears ht hslot with
    ⟨hnext, helapsed, hshown⟩ | ⟨hlast, hend, hidle, hshown⟩
  · refine ⟨_, .hearing byte short (e + 1) c hnext hshort hc (by omega) h, ?_⟩
    rw [List.map_append, List.map_append, ← List.append_assoc, hshown]
  · -- The receiver leaves the byte, and nothing but high levels is left of it.
    have hhigh : ∀ level ∈ (signal D byte).drop (e + 1), level = true := fun _ =>
      Transmitter.high_of_mem_drop (by omega) (by omega)
    refine ⟨due, ?_, ?_⟩
    · rw [hidle]
      exact .quiet (h.after_high hhigh)
    · rw [hshown, hlast]
      rfl

theorem Catching.clock (h : Catching D lag phase levels due) (hp : r.phase = phase)
    (hw : levels = r.second :: rest) (hD : 0 < D) (hlag : lag ≤ D) (ht : ticked = true ↔ lag = D) :
    Passes D (if ticked then 1 else lag + 1) (r.clock line ticked) rest due := by
  obtain ⟨hlag₀, hlag'⟩ := Receiver.lag_next hD hlag ht
  cases h with
  | quiet h => exact clock_quiet (hw ▸ h) hlag₀ hlag' hp
  | hearing byte short e c hhears hshort hc he h =>
    subst hp
    exact clock_hearing hhears hshort hc he h hlag ht hw

end

/-! ## Both sides in a step -/

/-- The levels that the transmitter is still to put on the line, `lag` steps after its last tick.
    In the first free step its counter may not have stopped yet. -/
inductive Ahead (D lag : Nat) (t : Transmitter) : List Bool → Prop
  | free (ht : t = {}) (hlag : lag ≤ 1) : Ahead D lag t []
  | sending (byte : UInt8) (ht : t.Sends byte) :
      Ahead D lag t ((signal D byte).drop (t.phase.slot * (16 * D) + lag))

/-- What a step of the transmitter makes of the line. -/
def Extends (D lag : Nat) (t : Transmitter) (levels : List Bool) (accepted : Option UInt8) : Prop :=
  ∃ levels' more, Ahead D lag t levels' ∧ t.line :: levels' = levels ++ more ∧
    Carries D more (accepted.toList.map Transmitter.frame)

section
variable {D : Nat} {c : BaudClock} {t : Transmitter} {byte : UInt8} {offered : Option UInt8}
  {levels : List Bool}

theorem extends_start (hc : c.Paced D) (hlag : c.bitLag ≤ 1) :
    Extends D (c.clock true).bitLag (({} : Transmitter).clock (some byte) c.bitTick) [] (some byte) := by
  have hD := hc.pos
  -- The counter has stopped, or is a step past the tick that ended the byte before.
  have hnotick : c.bitTick = false := by
    apply Bool.eq_false_iff.mpr
    intro htick
    have hdue := hc.bitTick_iff.mp htick
    omega
  have hnext : (c.clock true).bitLag = c.bitLag + 1 := by
    rw [hc.bitLag_clock, hnotick, if_neg Bool.false_ne_true]
  have hslot : c.bitLag / (16 * D) = 0 := Nat.div_eq_of_lt (by omega)
  have hsends : (({} : Transmitter).clock (some byte) c.bitTick).Sends byte := ⟨rfl, rfl, rfl⟩
  have hahead : Ahead D (c.bitLag + 1) (({} : Transmitter).clock (some byte) c.bitTick) _ :=
    .sending byte hsends
  rw [show (({} : Transmitter).clock (some byte) c.bitTick).phase.slot = 0 from rfl, Nat.zero_mul,
    Nat.zero_add] at hahead
  rw [hnext]
  refine ⟨_, (signal D byte).drop c.bitLag, hahead, ?_, ?_⟩
  · rw [Transmitter.drop_signal (e := c.bitLag) (by omega), hslot]
    rfl
  · have hcarries : Carries D ((signal D byte).drop c.bitLag ++ []) [Transmitter.frame byte] :=
      .byte byte c.bitLag hlag .nothing
    rwa [List.append_nil] at hcarries

theorem extends_sending (hc : c.Paced D) (ht : t.Sends byte) :
    Extends D (c.clock true).bitLag (t.clock offered c.bitTick)
      ((signal D byte).drop (t.phase.slot * (16 * D) + c.bitLag)) none := by
  have hlag := hc.bitLag_le
  have hlag₀ := Transmitter.bitLag_pos hc
  have hlag' := (hc.clock true).bitLag_le
  have hslot := Nat.mul_le_mul_right (16 * D) ht.slot_le
  have hplace : t.phase.slot * (16 * D) + c.bitLag ≤ 160 * D := by omega
  rcases ht.clock hc offered with ⟨hnext, hcount⟩ | ⟨hend, hone, hidle⟩
  · refine ⟨_, [], .sending byte hnext, ?_, .nothing⟩
    have hbit : (t.phase.slot * (16 * D) + c.bitLag) / (16 * D) = (t.clock offered c.bitTick).phase.slot := by
      rw [show t.phase.slot * (16 * D) + c.bitLag =
        (t.clock offered c.bitTick).phase.slot * (16 * D) + ((c.clock true).bitLag - 1) by omega]
      exact Sender.div_place (by omega)
    rw [List.append_nil, Transmitter.drop_signal hplace, hbit, hnext.line, hcount]
  · -- The tick that ends the stop bit leaves the line high for one more level.
    rw [hidle, hone, hend]
    refine ⟨[], [], .free rfl (Nat.le_refl 1), ?_, .nothing⟩
    have hover : (signal D byte).drop (160 * D + 1) = [] :=
      List.drop_eq_nil_of_le (Nat.le_of_eq Transmitter.length_signal)
    have hbit : 160 * D / (16 * D) = 10 := by
      rw [show 160 * D = 10 * (16 * D) + 0 by omega]
      exact Sender.div_place (Nat.mul_pos (by decide) hc.pos)
    rw [List.append_nil, Transmitter.drop_signal (Nat.le_refl _), hover, hbit]
    rfl

theorem Ahead.clock (h : Ahead D c.bitLag t levels) (hc : c.Paced D) :
    Extends D (c.clock (t.busy || offered.isSome)).bitLag (t.clock offered c.bitTick) levels
      (if t.busy then none else offered) := by
  cases h with
  | free ht hlag =>
    subst ht
    cases offered with
    | none => exact ⟨[], [true], .free rfl (Nat.zero_le _), rfl, .high .nothing⟩
    | some byte => exact extends_start hc hlag
  | sending byte ht =>
    rw [ht.busy]
    exact extends_sending hc ht

end

/-- The bytes that have been taken and have not come out are on the line, or between the two. -/
structure Circling (D : Nat) (s : SerialLoop) (due : List Frame) : Prop where
  paced : s.baud.Paced D
  coherent : s.receiver.Coherent
  levels : ∃ ahead, Ahead D s.baud.bitLag s.transmitter ahead ∧
    Catching D s.baud.lag s.receiver.phase
      (s.receiver.second :: s.receiver.first :: s.transmitter.line :: ahead) due

section
variable {D n : Nat} {s : SerialLoop} {due : List Frame} {offered : Option UInt8}
  {offers : Nat → Option UInt8}

theorem Circling.clock (h : Circling D s due) (offered : Option UInt8) :
    ∃ due', Circling D (s.clock offered) due' ∧
      (s.clock offered).receiver.shown ++ due'.map Frame.reading =
        due.map Frame.reading ++ (s.taken? offered).toList.map some := by
  have hc := h.paced
  obtain ⟨ahead, hahead, hcatching⟩ := h.levels
  have hextends : Extends D (s.clock offered).baud.bitLag (s.clock offered).transmitter ahead
      (s.taken? offered) := hahead.clock hc
  have hpasses : Passes D (s.clock offered).baud.lag (s.clock offered).receiver
      (s.receiver.first :: s.transmitter.line :: ahead) due := by
    rw [show (s.clock offered).baud = s.baud.clock _ from rfl, hc.lag_clock]
    exact hcatching.clock rfl rfl hc.pos hc.lag_le hc.tick_iff
  obtain ⟨ahead', more, hahead', hline, hcarries⟩ := hextends
  obtain ⟨due', hcatching', hshown⟩ := hpasses
  obtain ⟨hfirst, hsecond⟩ : (s.clock offered).receiver.first = s.transmitter.line ∧
      (s.clock offered).receiver.second = s.receiver.first := Receiver.clock_registers
  refine ⟨due' ++ (s.taken? offered).toList.map Transmitter.frame,
    ⟨hc.clock _, h.coherent.clock, ahead', hahead', ?_⟩, ?_⟩
  · have hnext := hcatching'.append hcarries
    rw [List.cons_append, List.cons_append, ← hline] at hnext
    rw [hfirst, hsecond]
    exact hnext
  · rw [List.map_append, ← List.append_assoc, hshown, List.map_map]
    rfl

theorem Circling.ahead_of_free (h : Circling D s due) (hb : s.transmitter.busy = false) :
    s.transmitter = {} ∧ Catching D s.baud.lag s.receiver.phase
      [s.receiver.second, s.receiver.first, s.transmitter.line] due := by
  obtain ⟨ahead, hahead, hcatching⟩ := h.levels
  cases hahead with
  | free ht hlag => exact ⟨ht, hcatching⟩
  | sending byte ht => exact absurd (hb.symm.trans ht.busy) (by decide)

/-- Between bytes nothing is due, and the line is high. -/
theorem Circling.nothing_of_idle (h : Circling D s due) (ht : s.transmitter.busy = false)
    (hr : s.receiver.busy = false) : due = [] ∧ s.receiver.second = true := by
  obtain ⟨-, hcatching⟩ := h.ahead_of_free ht
  rw [h.coherent.idle hr] at hcatching
  generalize hlevels : [s.receiver.second, s.receiver.first, s.transmitter.line] = levels at hcatching
  cases hcatching with
  | quiet hcarries =>
    subst hlevels
    obtain ⟨hdue, hhigh⟩ := hcarries.nothing_of_short h.paced.pos (Nat.le_refl 3)
    exact ⟨hdue, hhigh _ List.mem_cons_self⟩
  | hearing byte short e c hhears => exact hhears.elim

/-! ## A run -/

theorem run_add (n : Nat) : ∀ m, s.run offers (n + m) = (s.run offers n).run (fun k => offers (n + k)) m
  | 0 => rfl
  | m + 1 => congrArg (fun s' : SerialLoop => s'.clock (offers (n + m))) (run_add n m)

theorem run_of_silence {m : Nat} (h : ∀ k, k < m → offers k = none) :
    s.run offers m = s.run (fun _ => none) m := by
  induction m with
  | zero => rfl
  | succ m ih =>
    rw [run, run, ih fun k hk => h k (Nat.lt_succ_of_lt hk), h m (Nat.lt_succ_self m)]

/-- What the receiver has shown after each of the first `n` steps, errors included. -/
def shown (s : SerialLoop) (offers : Nat → Option UInt8) (n : Nat) : List (Option UInt8) :=
  (List.range n).flatMap fun k => (s.run offers (k + 1)).receiver.shown

theorem Circling.run (h : Circling D s due) (offers : Nat → Option UInt8) : ∀ n, ∃ due',
    Circling D (s.run offers n) due' ∧ s.shown offers n ++ due'.map Frame.reading =
      due.map Frame.reading ++ (s.taken offers n).map some
  | 0 => ⟨due, h, by simp [shown, taken]⟩
  | n + 1 => by
    obtain ⟨due', hn, hshown⟩ := h.run offers n
    obtain ⟨due'', hnext, hstep⟩ := hn.clock (offers n)
    refine ⟨due'', hnext, ?_⟩
    calc s.shown offers (n + 1) ++ due''.map Frame.reading
      _ = s.shown offers n ++ ((s.run offers (n + 1)).receiver.shown ++ due''.map Frame.reading) := by
        simp [shown, List.range_succ]
      _ = s.shown offers n ++ due'.map Frame.reading ++
          ((s.run offers n).taken? (offers n)).toList.map some := by
        rw [SerialLoop.run, hstep, List.append_assoc]
      _ = due.map Frame.reading ++ (s.taken offers (n + 1)).map some := by
        rw [hshown, taken, taken, List.range_succ, List.flatMap_append, List.flatMap_singleton,
          List.map_append, List.append_assoc]

/-! ## The end of a run -/

theorem run_free (h : s.transmitter = {}) : ∀ m, (s.run (fun _ => none) m).transmitter = {}
  | 0 => h
  | m + 1 => by
    rw [run, clock, run_free h m]
    rfl

/-- A byte goes out in ten bits. -/
theorem Circling.sends_or_free (h : Circling D s due) : ∀ m,
    (s.run (fun _ => none) m).transmitter = {} ∨ ∃ byte, (s.run (fun _ => none) m).transmitter.Sends byte ∧
      m ≤ (s.run (fun _ => none) m).transmitter.phase.slot * (16 * D) +
        (s.run (fun _ => none) m).baud.bitLag
  | 0 => by
    obtain ⟨ahead, hahead, -⟩ := h.levels
    cases hahead with
    | free ht hlag => exact .inl ht
    | sending byte ht => exact .inr ⟨byte, ht, Nat.zero_le _⟩
  | m + 1 => by
    obtain ⟨_, hm, -⟩ := h.run (fun _ => none) m
    rcases h.sends_or_free m with hfree | ⟨byte, hsends, hcount⟩
    · left
      rw [SerialLoop.run, SerialLoop.clock, hfree]
      rfl
    · simp only [SerialLoop.run, SerialLoop.clock, hsends.busy, Bool.true_or]
      rcases hsends.clock hm.paced none with ⟨hnext, hnext_count⟩ | ⟨-, -, hidle⟩
      · exact .inr ⟨byte, hnext, by omega⟩
      · exact .inl hidle

theorem Circling.free_after (h : Circling D s due) {m : Nat} (hm : 160 * D < m) :
    (s.run (fun _ => none) m).transmitter = {} := by
  obtain ⟨_, hcircling, -⟩ := h.run (fun _ => none) m
  rcases h.sends_or_free m with hfree | ⟨byte, hsends, hcount⟩
  · exact hfree
  · have hlag := hcircling.paced.bitLag_le
    have hslot := Nat.mul_le_mul_right (16 * D) hsends.slot_le
    omega

/-- Steps since the receiver noticed the start bit, from its first tick on. -/
def elapsed (D : Nat) (s : SerialLoop) : Nat := s.receiver.phase.ticks * D + s.baud.lag

/-- A receiver that is still busy when the transmitter is free has come to the end of a byte. -/
theorem Circling.elapsed_of_busy (h : Circling D s due) (ht : s.transmitter.busy = false)
    (hr : s.receiver.busy = true) : 160 * D ≤ elapsed D s + 3 ∧ elapsed D s ≤ 159 * D := by
  have hlag := h.paced.lag_le
  obtain ⟨-, hcatching⟩ := h.ahead_of_free ht
  generalize hlevels : [s.receiver.second, s.receiver.first, s.transmitter.line] = levels at hcatching
  generalize hphase : s.receiver.phase = phase at hcatching
  cases hcatching with
  | quiet => exact absurd hphase (h.coherent.busy.mp hr)
  | hearing byte short e c hhears hshort hc he =>
    have hticks := Nat.mul_le_mul_right D hhears.ticks_le
    have hlength := congrArg List.length hlevels
    simp only [List.length_cons, List.length_nil, List.length_append, List.length_drop,
      Transmitter.length_signal] at hlength
    rw [elapsed, hphase]
    omega

theorem Circling.elapsed_clock (h : Circling D s due) (offered : Option UInt8) (hr : s.receiver.busy = true)
    (hr' : (s.clock offered).receiver.busy = true) : elapsed D (s.clock offered) = elapsed D s + 1 := by
  obtain ⟨due', h', -⟩ := h.clock offered
  exact Receiver.elapsed_clock h.paced (h.coherent.busy.mp hr) (h'.coherent.busy.mp hr') _

theorem Circling.stays_idle (h : Circling D s due) (ht : s.transmitter = {}) (hr : s.receiver.busy = false) :
    ∀ m, (s.run (fun _ => none) m).receiver.busy = false
  | 0 => hr
  | m + 1 => by
    obtain ⟨_, hm, -⟩ := h.run (fun _ => none) m
    have hrm := h.stays_idle ht hr m
    obtain ⟨-, hsecond⟩ := hm.nothing_of_idle (by rw [run_free ht m]) hrm
    rw [SerialLoop.run, SerialLoop.clock, Receiver.clock_idle_high (hm.coherent.idle hrm) hsecond]
    exact hrm

/-- The receiver is at the end of the last byte by the time it has gone out. -/
theorem Circling.settles (h : Circling D s due) (ht : s.transmitter = {}) :
    ∃ k, k ≤ 3 ∧ (s.run (fun _ => none) k).receiver.busy = false := by
  have hpos := h.paced.pos
  refine @Receiver.exists_rest (fun k => (s.run (fun _ => none) k).receiver.busy)
    (fun k => elapsed D (s.run (fun _ => none) k)) (159 * D) 3 ?_ ?_ ?_
  · intro k _ hb hb'
    obtain ⟨_, hk, -⟩ := h.run (fun _ => none) k
    exact hk.elapsed_clock none hb hb'
  · intro hb
    obtain ⟨hend, -⟩ := h.elapsed_of_busy (by rw [ht]) hb
    show 159 * D < elapsed D s + 3
    omega
  · intro hb
    obtain ⟨_, hthree, -⟩ := h.run (fun _ => none) 3
    exact (hthree.elapsed_of_busy (by rw [run_free ht]) hb).2

theorem Circling.rests (h : Circling D s due) {m : Nat} (hm : 160 * D + 4 ≤ m) :
    (s.run (fun _ => none) m).transmitter = {} ∧ (s.run (fun _ => none) m).receiver.busy = false := by
  have hfree : (s.run (fun _ => none) (160 * D + 1)).transmitter = {} := h.free_after (Nat.lt_succ_self _)
  obtain ⟨_, hcircling, -⟩ := h.run (fun _ => none) (160 * D + 1)
  obtain ⟨k, hk, hidle⟩ := hcircling.settles hfree
  -- From there on nothing happens any more.
  have hadd : ∀ n j, s.run (fun _ => none) (n + j) = (s.run (fun _ => none) n).run (fun _ => none) j :=
    fun n j => run_add n j
  rw [← hadd] at hidle
  obtain ⟨_, hsettled, -⟩ := h.run (fun _ => none) (160 * D + 1 + k)
  have hrest := hsettled.stays_idle (h.free_after (by omega)) hidle (m - (160 * D + 1 + k))
  rw [← hadd, Nat.add_sub_of_le (by omega)] at hrest
  exact ⟨h.free_after (by omega), hrest⟩

/-! ## From the start -/

/-- Both ends at rest, `count` steps after the last tick of the oversample counter or at the tick,
    at `D` steps to a tick. -/
def start (D count : Nat) (ticked : Bool) : SerialLoop :=
  { baud := {
      oversampleDivisor := UInt32.ofNat D
      bitDivisor := UInt32.ofNat (16 * D)
      oversampleCount := UInt32.ofNat count
      oversampleTick := ticked } }

theorem circling_start {count : Nat} {ticked : Bool} (hbits : 16 * D < 2 ^ 32) (hcount : count < D)
    (hticked : ticked = true → count = 0) : Circling D (start D count ticked) [] where
  paced := BaudClock.paced_standing hbits hcount hticked
  coherent := Receiver.coherent_initial
  levels := ⟨[], .free rfl (Nat.zero_le _), .quiet (.high (.high (.high .nothing)))⟩

/-- What comes out in the first `n` steps. -/
structure Lossless (D : Nat) (s : SerialLoop) (offers : Nat → Option UInt8) (n : Nat) : Prop where
  in_order : s.flagged offers n <+: s.taken offers n
  complete : (s.run offers n).transmitter.busy = false → (s.run offers n).receiver.busy = false →
    s.flagged offers n = s.taken offers n
  errors : ∀ k, k ≤ n → (s.run offers k).receiver.frameError = false
  rests : ∀ m, 160 * D + 4 ≤ m → (∀ k, k < m → offers (n + k) = none) →
    (s.run offers (n + m)).transmitter.busy = false ∧ (s.run offers (n + m)).receiver.busy = false

theorem Circling.lossless (h : Circling D s []) (hs : s.receiver.frameError = false)
    (offers : Nat → Option UInt8) (n : Nat) : Lossless D s offers n := by
  let rs : Nat → Receiver := fun k => (s.run offers k).receiver
  refine ⟨?_, ?_, ?_, ?_⟩
  · obtain ⟨due, -, hshown⟩ := h.run offers n
    exact ⟨_, @Receiver.flagged_of_shown rs n due _ hshown⟩
  · intro ht hr
    obtain ⟨due, hn, hshown⟩ := h.run offers n
    obtain ⟨rfl, -⟩ := hn.nothing_of_idle ht hr
    exact (List.append_nil _).symm.trans (@Receiver.flagged_of_shown rs n [] _ hshown)
  · intro k _
    cases k with
    | zero => exact hs
    | succ k =>
      obtain ⟨due, -, hshown⟩ := h.run offers (k + 1)
      exact @Receiver.frameError_of_shown rs (k + 1) k due _ hshown (Nat.lt_succ_self k)
  · intro m hm hnone
    obtain ⟨due, hn, -⟩ := h.run offers n
    rw [run_add, run_of_silence hnone]
    obtain ⟨hfree, hidle⟩ := hn.rests hm
    exact ⟨by rw [hfree], hidle⟩

/-- At every divisor, wherever the oversample counter stands, and whatever is offered. -/
theorem lossless_of_start {D count : Nat} {ticked : Bool} (hbits : 16 * D < 2 ^ 32) (hcount : count < D)
    (hticked : ticked = true → count = 0) (offers : Nat → Option UInt8) (n : Nat) :
    Lossless D (start D count ticked) offers n :=
  (circling_start hbits hcount hticked).lossless rfl offers n

/-- At two steps to a tick: something is offered in every step up to the first free one. -/
theorem lossless_of_start_row :
    let s := start 2 1 false
    let offers : Nat → Option UInt8 := fun k => if k ≤ 321 then some (UInt8.ofNat k) else none
    (16 * 2 < 2 ^ 32 ∧ 1 < 2 ∧ (false = true → 1 = 0)) ∧ Lossless 2 s offers 660 ∧
      (s.run offers 320).taken? (offers 320) = none ∧ (s.run offers 321).taken? (offers 321) = some 65 ∧
      (s.run offers 660).transmitter.busy = false ∧ (s.run offers 660).receiver.busy = false := by
  intro s offers
  have hstart : 16 * 2 < 2 ^ 32 ∧ 1 < 2 ∧ (false = true → 1 = 0) := by decide
  exact ⟨hstart, lossless_of_start hstart.1 hstart.2.1 hstart.2.2 offers 660,
    by decide +kernel, by decide +kernel, by decide +kernel, by decide +kernel⟩

end

end SerialLoop

end BrainfuckBoard
