import BrainfuckBoard.Board.Downlink
import BrainfuckBoard.Proofs.Board.Wire

/- The receiver and a terminal whose bits are not sixteen ticks long. With the bit period the line
   drifts away from the ticks, at most by half a bit up to the stop bit: the receiver still looks
   into the right bit (`Tolerated.slot_eq`), and is idle again before the next frame begins
   (`clock_hearing`). `Carries` says which bytes the levels of the line are, `Catching` where the
   receiver is in them, and `Expecting` puts the terminal at the other end. So each byte that is sent
   comes out once and in order (`faithful_of_start`). -/
namespace BrainfuckBoard

/-! ## What goes in and what comes out -/

/-- The terminal, without what it has heard, and what its line leads to. -/
def Board.downlink (b : Board) : Downlink :=
  { terminal := { b.terminal with listener := {} }, baud := b.chip.baud, receiver := b.chip.receiver }

/-- A board that runs is such a link, with what its program makes of the bit counter. -/
theorem Board.Awake.downlink_step {b : Board} (h : b.Awake) : b.step.downlink = b.downlink.clock []
    (b.chip.transmitter.busy || (b.chip.sent? { b.pins with rx := b.terminal.line }).isSome) := by
  simp [downlink, h.step_terminal, h.step_chip, Chip.clock, Downlink.clock, Terminal.send, Terminal.advance,
    Terminal.sample, Terminal.line, Sender.enqueue]

namespace Downlink

/-- The bytes that are sent before the first `n` steps are over. -/
def sent (sends : Nat → Bytes) (n : Nat) : Bytes := (List.range n).flatMap sends

/-- The bytes that the receiver has flagged after each of the first `n` steps. -/
def flagged (s : Downlink) (sends : Nat → Bytes) (sending : Nat → Bool) (n : Nat) : Bytes :=
  (List.range n).flatMap fun k => (s.run sends sending (k + 1)).receiver.byte?.toList

/-! ## The line -/

/-- The bits are `P` steps long, and `gap` of them follow a frame. With `D` steps to a tick, the
    receiver looks at the stop bit after it has begun, with every phase of the ticks, and before
    its end; and it is idle again when the next frame begins. -/
structure Tolerated (D P gap : Nat) : Prop where
  early : 9 * P ≤ 151 * D + 1
  late : 152 * D + 1 ≤ 10 * P
  apart : 159 * D + 1 ≤ (10 + gap) * P

/-- The frame that a byte is sent in. -/
def frame (gap : Nat) (byte : UInt8) : Frame := { byte, gap }

/-- The levels of a line that is high but for some frames. -/
inductive Carries (P gap : Nat) : List Bool → List Frame → Prop
  | nothing : Carries P gap [] []
  | high {levels : List Bool} {due : List Frame} (h : Carries P gap levels due) :
      Carries P gap (true :: levels) due
  | byte (byte : UInt8) {levels : List Bool} {due : List Frame} (h : Carries P gap levels due) :
      Carries P gap ((frame gap byte).wave P ++ levels) (frame gap byte :: due)

/-- The receiver's phase, the levels it has yet to see, and the frames that are due, `lag` steps
    after the last tick. In a frame the next level is at `e`, and `c` is the delay from the fall of
    the line to the first step that was counted. -/
inductive Catching (D P gap lag : Nat) : Receiver.Phase → List Bool → List Frame → Prop
  | quiet {levels : List Bool} {due : List Frame} (h : Carries P gap levels due) :
      Catching D P gap lag .idle levels due
  | hearing {phase : Receiver.Phase} (byte : UInt8) (e c : Nat) {rest : List Bool} {due : List Frame}
      (hhears : phase.Hears (frame gap byte)) (hc : c < D) (he : e + c = phase.ticks * D + lag)
      (h : Carries P gap rest due) :
      Catching D P gap lag phase (((frame gap byte).wave P).drop e ++ rest)
        (phase.owed (frame gap byte) ++ due)

section
variable {D P gap lag : Nat} {phase : Receiver.Phase} {r : Receiver} {levels rest more : List Bool}
  {due due' : List Frame} {line ticked : Bool}

theorem Tolerated.pos (h : Tolerated D P gap) : 0 < P := by
  have hlate := h.late
  omega

/-- Where the receiver looks, `8 + 16 * m` ticks after the line fell, is bit `m`. -/
theorem Tolerated.slot_eq (h : Tolerated D P gap) {e c m : Nat} (hm : m ≤ 9) (hc : c < D)
    (he : e + c = (8 + 16 * m) * D) : e / P = m := by
  have hearly : 9 * (m * P) ≤ 151 * (m * D) + m := by
    have hle := Nat.mul_le_mul_left m h.early
    rwa [Nat.mul_add, Nat.mul_one, Nat.mul_left_comm m 9, Nat.mul_left_comm m 151] at hle
  have hlate : 152 * ((m + 1) * D) + (m + 1) ≤ 10 * ((m + 1) * P) := by
    have hle := Nat.mul_le_mul_left (m + 1) h.late
    rwa [Nat.mul_add, Nat.mul_one, Nat.mul_left_comm _ 152, Nat.mul_left_comm _ 10] at hle
  have hmiddle : e + c = 8 * D + 16 * (m * D) := by rw [he, Nat.add_mul, Nat.mul_assoc]
  have hnine : m * D ≤ 9 * D := Nat.mul_le_mul_right D hm
  rw [Nat.succ_mul m D, Nat.succ_mul m P] at hlate
  apply Nat.div_eq_of_lt_le
  · omega
  · rw [Nat.succ_mul]
    omega

theorem Carries.append (h : Carries P gap levels due) (h' : Carries P gap more due') :
    Carries P gap (levels ++ more) (due ++ due') := by
  induction h with
  | nothing => exact h'
  | high _ ih => exact .high ih
  | byte byte _ ih =>
    rw [List.append_assoc]
    exact .byte byte ih

theorem Carries.after_high (h : Carries P gap levels due) (hhigh : ∀ level ∈ more, level = true) :
    Carries P gap (more ++ levels) due := by
  induction more with
  | nil => exact h
  | cons level more ih =>
    obtain ⟨rfl, hrest⟩ := List.forall_mem_cons.mp hhigh
    exact .high (ih hrest)

theorem carries_frames (bytes : Bytes) :
    Carries P gap ((bytes.map (frame gap)).flatMap (Frame.wave P)) (bytes.map (frame gap)) := by
  induction bytes with
  | nil => exact .nothing
  | cons byte bytes ih => exact .byte byte ih

theorem Catching.append (h : Catching D P gap lag phase levels due) (h' : Carries P gap more due') :
    Catching D P gap lag phase (levels ++ more) (due ++ due') := by
  cases h with
  | quiet h => exact quiet (h.append h')
  | hearing byte e c hhears hc he h =>
    rw [List.append_assoc, List.append_assoc]
    exact hearing byte e c hhears hc he (h.append h')

theorem le_length_wave (ht : Tolerated D P gap) (byte : UInt8) :
    159 * D + 1 ≤ ((frame gap byte).wave P).length := by
  rw [Frame.length_wave]
  exact ht.apart

/-- A frame is longer than the two registers. -/
theorem Carries.nothing_of_short (h : Carries P gap levels due) (ht : Tolerated D P gap) (hD : 0 < D)
    (hlen : levels.length ≤ 2) : due = [] ∧ ∀ level ∈ levels, level = true := by
  induction h with
  | nothing => exact ⟨rfl, nofun⟩
  | high _ ih =>
    obtain ⟨hdue, hhigh⟩ := ih (Nat.le_of_succ_le hlen)
    exact ⟨hdue, List.forall_mem_cons.mpr ⟨rfl, hhigh⟩⟩
  | byte byte _ ih =>
    have hlong := le_length_wave ht byte
    rw [List.length_append] at hlen
    omega

/-! ## The receiver in a step -/

/-- What a step of the receiver makes of the frames that are due. -/
def Passes (D P gap lag : Nat) (r : Receiver) (rest : List Bool) (due : List Frame) : Prop :=
  ∃ due', Catching D P gap lag r.phase rest due' ∧
    r.shown ++ due'.map Frame.reading = due.map Frame.reading

theorem passes_silent (h : Catching D P gap lag r.phase rest due) (hv : r.valid = false)
    (he : r.frameError = false) : Passes D P gap lag r rest due :=
  ⟨due, h, by rw [Receiver.shown_eq_nil hv he]; rfl⟩

theorem clock_quiet {lag' : Nat} (ht : Tolerated D P gap) (h : Carries P gap (r.second :: rest) due)
    (hlag₀ : 0 < lag') (hlag : lag' ≤ D) (hp : r.phase = .idle) :
    Passes D P gap lag' (r.clock line ticked) rest due := by
  generalize hw : r.second :: rest = levels at h
  cases h with
  | nothing => exact absurd hw (List.cons_ne_nil _ _)
  | high h =>
    obtain ⟨hs, rfl⟩ := List.cons.inj hw
    rw [Receiver.clock_idle_high hp hs]
    apply passes_silent _ rfl rfl
    rw [show (r.shifted line).phase = .idle from hp]
    exact .quiet h
  | byte byte h =>
    -- The fall is noticed in this step, and counted from the next tick on.
    rw [Frame.wave_start ht.pos, List.cons_append] at hw
    obtain ⟨hs, rfl⟩ := List.cons.inj hw
    rw [Receiver.clock_idle_low hp hs]
    apply passes_silent _ rfl rfl
    exact .hearing byte 1 (lag' - 1) (Nat.zero_le _) (by omega)
      (by simp only [Receiver.Phase.ticks]; omega) h

theorem clock_hearing {byte : UInt8} {e c : Nat} (htolerated : Tolerated D P gap)
    (hhears : r.phase.Hears (frame gap byte)) (hc : c < D) (he : e + c = r.phase.ticks * D + lag)
    (h : Carries P gap more due) (hlag : lag ≤ D) (ht : ticked = true ↔ lag = D)
    (hw : ((frame gap byte).wave P).drop e ++ more = r.second :: rest) :
    Passes D P gap (if ticked then 1 else lag + 1) (r.clock line ticked) rest
      (r.phase.owed (frame gap byte) ++ due) := by
  have hticks := Nat.mul_le_mul_right D hhears.ticks_le
  have hdrop : e < (frame gap byte).length * P := by
    have hlong := htolerated.apart
    show e < (10 + gap) * P
    omega
  rw [Frame.drop_wave hdrop, List.cons_append, List.cons.injEq] at hw
  obtain ⟨hlevel, rfl⟩ := hw
  have hslot : ∀ m, m ≤ 9 → r.phase.ticks * D + lag = (8 + 16 * m) * D →
      r.second = (frame gap byte).level m := by
    intro m hm hmiddle
    rw [← hlevel, htolerated.slot_eq hm hc (he.trans hmiddle)]
  rcases @Receiver.Phase.Hears.clock_paced r (frame gap byte) line ticked D lag hhears ht hslot with
    ⟨hnext, helapsed, hshown⟩ | ⟨hlast, hend, hidle, hshown⟩
  · refine ⟨_, .hearing byte (e + 1) c hnext hc (by omega) h, ?_⟩
    rw [List.map_append, List.map_append, ← List.append_assoc, hshown]
  · -- The receiver leaves the frame, and nothing but high levels is left of it.
    have hearly := htolerated.early
    have hhigh : ∀ level ∈ ((frame gap byte).wave P).drop (e + 1), level = true := fun _ =>
      Frame.high_of_mem_drop rfl htolerated.pos (by omega)
    refine ⟨due, ?_, ?_⟩
    · rw [hidle]
      exact .quiet (h.after_high hhigh)
    · rw [hshown, hlast]
      rfl

theorem Catching.clock (h : Catching D P gap lag phase levels due) (htolerated : Tolerated D P gap)
    (hp : r.phase = phase) (hw : levels = r.second :: rest) (hD : 0 < D) (hlag : lag ≤ D)
    (ht : ticked = true ↔ lag = D) :
    Passes D P gap (if ticked then 1 else lag + 1) (r.clock line ticked) rest due := by
  obtain ⟨hlag₀, hlag'⟩ := Receiver.lag_next hD hlag ht
  cases h with
  | quiet h => exact clock_quiet htolerated (hw ▸ h) hlag₀ hlag' hp
  | hearing byte e c hhears hc he h =>
    subst hp
    exact clock_hearing htolerated hhears hc he h hlag ht hw

end

/-! ## Both ends in a step -/

/-- The levels that the receiver has yet to see: two in its registers, and the rest at the terminal. -/
def levels (P : Nat) (s : Downlink) : List Bool :=
  s.receiver.second :: s.receiver.first :: s.terminal.sender.ahead P

/-- The bytes that have been sent and have not come out are on the way. -/
structure Expecting (D P gap : Nat) (s : Downlink) (due : List Frame) : Prop where
  tolerated : Tolerated D P gap
  paced : s.baud.Paced D
  bits : s.terminal.period.toNat = P
  spacing : s.terminal.gap.toNat = gap
  placed : s.terminal.sender.Placed P
  coherent : s.receiver.Coherent
  catching : Catching D P gap s.baud.lag s.receiver.phase (s.levels P) due

section
variable {D P gap n : Nat} {s : Downlink} {due : List Frame} {bytes : Bytes} {sending : Bool}
  {sends : Nat → Bytes} {enables : Nat → Bool}

theorem Expecting.send (h : Expecting D P gap s due) (bytes : Bytes) :
    (s.terminal.send bytes).sender.Placed P ∧ (s.terminal.send bytes).sender.ahead P =
      s.terminal.sender.ahead P ++ (bytes.map (frame gap)).flatMap (Frame.wave P) := by
  have hframes : (fun byte => s.terminal.frame byte true) = frame gap := by
    funext byte
    simp [Terminal.frame, frame, h.spacing]
  rw [Terminal.send, hframes]
  exact Sender.ahead_enqueue h.placed h.tolerated.pos _

/-- A step sends one level, a high one if there is nothing to send. -/
theorem Expecting.line (h : Expecting D P gap s due) (bytes : Bytes) (sending : Bool) :
    (s.clock bytes sending).terminal.sender.Placed P ∧
      (s.clock bytes sending).terminal.sender.ahead P = ((s.terminal.send bytes).sender.ahead P).tail ∧
      (s.terminal.send bytes).line = ((s.terminal.send bytes).sender.ahead P).headD true := by
  obtain ⟨hplaced, -⟩ := h.send bytes
  obtain ⟨hplaced', htail⟩ := Sender.ahead_advance hplaced h.bits
  exact ⟨hplaced', htail, Sender.line_eq hplaced⟩

theorem Expecting.clock (h : Expecting D P gap s due) (bytes : Bytes) (sending : Bool) :
    ∃ due', Expecting D P gap (s.clock bytes sending) due' ∧
      (s.clock bytes sending).receiver.shown ++ due'.map Frame.reading =
        due.map Frame.reading ++ bytes.map some := by
  obtain ⟨-, hahead⟩ := h.send bytes
  obtain ⟨hplaced, htail, hline⟩ := h.line bytes sending
  have hcatching : Catching D P gap s.baud.lag s.receiver.phase
      (s.receiver.second :: s.receiver.first :: (s.terminal.send bytes).sender.ahead P)
      (due ++ bytes.map (frame gap)) := by
    rw [hahead]
    exact h.catching.append (carries_frames bytes)
  have hpasses : Passes D P gap (s.clock bytes sending).baud.lag (s.clock bytes sending).receiver
      (s.receiver.first :: (s.terminal.send bytes).sender.ahead P) (due ++ bytes.map (frame gap)) := by
    rw [show (s.clock bytes sending).baud = s.baud.clock sending from rfl, h.paced.lag_clock]
    exact hcatching.clock h.tolerated rfl rfl h.paced.pos h.paced.lag_le h.paced.tick_iff
  obtain ⟨due', hcatching', hshown⟩ := hpasses
  obtain ⟨hfirst, hsecond⟩ : (s.clock bytes sending).receiver.first = (s.terminal.send bytes).line ∧
      (s.clock bytes sending).receiver.second = s.receiver.first := Receiver.clock_registers
  refine ⟨due', ⟨h.tolerated, h.paced.clock _, h.bits, h.spacing, hplaced, h.coherent.clock, ?_⟩, ?_⟩
  · rw [levels, hfirst, hsecond, htail, hline]
    cases ha : (s.terminal.send bytes).sender.ahead P with
    | nil =>
      have hhigh := hcatching'.append (.high .nothing)
      rw [ha, List.append_nil] at hhigh
      exact hhigh
    | cons level tail =>
      rw [ha] at hcatching'
      exact hcatching'
  · rw [hshown, List.map_append, List.map_map]
    rfl

/-! ## A run -/

/-- What the receiver has shown after each of the first `n` steps, errors included. -/
def shown (s : Downlink) (sends : Nat → Bytes) (enables : Nat → Bool) (n : Nat) : List (Option UInt8) :=
  (List.range n).flatMap fun k => (s.run sends enables (k + 1)).receiver.shown

theorem sent_succ : sent sends (n + 1) = sent sends n ++ sends n := by
  rw [sent, List.range_succ, List.flatMap_append, List.flatMap_singleton, ← sent]

theorem Expecting.run (h : Expecting D P gap s due) (sends : Nat → Bytes) (enables : Nat → Bool) :
    ∀ n, ∃ due', Expecting D P gap (s.run sends enables n) due' ∧
      s.shown sends enables n ++ due'.map Frame.reading = due.map Frame.reading ++ (sent sends n).map some
  | 0 => ⟨due, h, by simp [shown, sent]⟩
  | n + 1 => by
    obtain ⟨due', hn, hshown⟩ := h.run sends enables n
    obtain ⟨due'', hnext, hstep⟩ := hn.clock (sends n) (enables n)
    refine ⟨due'', hnext, ?_⟩
    calc s.shown sends enables (n + 1) ++ due''.map Frame.reading
      _ = s.shown sends enables n ++
          ((s.run sends enables (n + 1)).receiver.shown ++ due''.map Frame.reading) := by
        simp [shown, List.range_succ]
      _ = s.shown sends enables n ++ due'.map Frame.reading ++ (sends n).map some := by
        rw [Downlink.run, hstep, List.append_assoc]
      _ = due.map Frame.reading ++ (sent sends (n + 1)).map some := by
        rw [hshown, sent_succ, List.map_append, List.append_assoc]

/-! ## The end of a run -/

theorem Expecting.sender_idle (h : Expecting D P gap s due) :
    s.terminal.sender.idle = true ↔ s.terminal.sender.ahead P = [] := (Sender.ahead_eq_nil_iff h.placed).symm

/-- A frame has `(10 + gap) * P` levels, and each step sends one. -/
theorem Expecting.length_ahead_le (h : Expecting D P gap s due) (sends : Nat → Bytes)
    (enables : Nat → Bool) :
    ∀ n, ((s.run sends enables n).terminal.sender.ahead P).length ≤
      (s.terminal.sender.ahead P).length + (sent sends n).length * ((10 + gap) * P)
  | 0 => Nat.le_add_right _ _
  | n + 1 => by
    have ih := h.length_ahead_le sends enables n
    obtain ⟨_, hn, -⟩ := h.run sends enables n
    obtain ⟨-, hahead⟩ := hn.send (sends n)
    obtain ⟨-, htail, -⟩ := hn.line (sends n) (enables n)
    have hframes : ∀ bytes : Bytes, ((bytes.map (frame gap)).flatMap (Frame.wave P)).length =
        bytes.length * ((10 + gap) * P) := by
      intro bytes
      induction bytes with
      | nil => rw [List.length_nil, Nat.zero_mul]; rfl
      | cons byte bytes ih =>
        rw [List.map_cons, List.flatMap_cons, List.length_append, ih, Frame.length_wave, List.length_cons,
          Nat.succ_mul, Nat.add_comm]
        rfl
    rw [Downlink.run, htail, List.length_tail, hahead, List.length_append, hframes, sent_succ,
      List.length_append, Nat.add_mul (sent sends n).length]
    omega

theorem Expecting.ahead_of_silence (h : Expecting D P gap s due) {m : Nat}
    (hnone : ∀ k, k < m → sends (n + k) = []) :
    (s.run sends enables (n + m)).terminal.sender.ahead P =
      ((s.run sends enables n).terminal.sender.ahead P).drop m := by
  induction m with
  | zero => rfl
  | succ m ih =>
    obtain ⟨_, hm, -⟩ := h.run sends enables (n + m)
    obtain ⟨-, hahead⟩ := hm.send (sends (n + m))
    obtain ⟨-, htail, -⟩ := hm.line (sends (n + m)) (enables (n + m))
    have hrun : s.run sends enables (n + (m + 1)) =
        (s.run sends enables (n + m)).clock (sends (n + m)) (enables (n + m)) := rfl
    rw [hrun, htail, hahead, ih fun k hk => hnone k (Nat.lt_succ_of_lt hk), hnone m (Nat.lt_succ_self m),
      List.map_nil, List.flatMap_nil, List.append_nil, List.tail_drop]

/-- Between frames nothing is due, and the line is high. -/
theorem Expecting.nothing_of_idle (h : Expecting D P gap s due) (hs : s.terminal.sender.idle = true)
    (hr : s.receiver.busy = false) : due = [] ∧ s.receiver.second = true := by
  have hcatching := h.catching
  rw [h.coherent.idle hr, levels, h.sender_idle.mp hs] at hcatching
  generalize hlevels : [s.receiver.second, s.receiver.first] = levels at hcatching
  cases hcatching with
  | quiet hcarries =>
    subst hlevels
    obtain ⟨hdue, hhigh⟩ := hcarries.nothing_of_short h.tolerated h.paced.pos (Nat.le_refl 2)
    exact ⟨hdue, hhigh _ List.mem_cons_self⟩
  | hearing byte e c hhears => exact hhears.elim

/-- Steps since the receiver noticed the start bit, from its first tick on. -/
def elapsed (D : Nat) (s : Downlink) : Nat := s.receiver.phase.ticks * D + s.baud.lag

/-- A receiver that is still busy when everything has gone out has come to the end of a frame. -/
theorem Expecting.elapsed_of_busy (h : Expecting D P gap s due) (hs : s.terminal.sender.idle = true)
    (hr : s.receiver.busy = true) : 159 * D < elapsed D s + 2 ∧ elapsed D s ≤ 159 * D := by
  have hlag := h.paced.lag_le
  have hcatching := h.catching
  rw [levels, h.sender_idle.mp hs] at hcatching
  generalize hlevels : [s.receiver.second, s.receiver.first] = levels at hcatching
  generalize hphase : s.receiver.phase = phase at hcatching
  cases hcatching with
  | quiet => exact absurd hphase (h.coherent.busy.mp hr)
  | hearing byte e c hhears hc he =>
    have hticks := Nat.mul_le_mul_right D hhears.ticks_le
    have hlong := le_length_wave h.tolerated byte
    have hlength := congrArg List.length hlevels
    simp only [List.length_cons, List.length_nil, List.length_append, List.length_drop] at hlength
    rw [elapsed, hphase]
    omega

theorem Expecting.elapsed_clock (h : Expecting D P gap s due) (bytes : Bytes) (sending : Bool)
    (hr : s.receiver.busy = true) (hr' : (s.clock bytes sending).receiver.busy = true) :
    elapsed D (s.clock bytes sending) = elapsed D s + 1 := by
  obtain ⟨_, h', -⟩ := h.clock bytes sending
  exact Receiver.elapsed_clock h.paced (h.coherent.busy.mp hr) (h'.coherent.busy.mp hr') _

theorem Expecting.stays_idle (h : Expecting D P gap s due) (hs : s.terminal.sender.idle = true)
    (hr : s.receiver.busy = false) (bytes : Bytes) (sending : Bool) :
    (s.clock bytes sending).receiver.busy = false := by
  obtain ⟨-, hsecond⟩ := h.nothing_of_idle hs hr
  rw [Downlink.clock, Receiver.clock_idle_high (h.coherent.idle hr) hsecond]
  exact hr

/-- Everything has gone out, and two steps later it has been heard. -/
theorem Expecting.rests (h : Expecting D P gap s due) {m : Nat}
    (hm : ((s.run sends enables n).terminal.sender.ahead P).length + 2 ≤ m)
    (hnone : ∀ k, k < m → sends (n + k) = []) :
    (s.run sends enables (n + m)).terminal.sender.idle = true ∧
      (s.run sends enables (n + m)).receiver.busy = false := by
  have hidle : ∀ k, ((s.run sends enables n).terminal.sender.ahead P).length ≤ k → k ≤ m →
      (s.run sends enables (n + k)).terminal.sender.idle = true := by
    intro k hk hkm
    obtain ⟨_, hexpecting, -⟩ := h.run sends enables (n + k)
    rw [hexpecting.sender_idle, h.ahead_of_silence fun i hi => hnone i (Nat.lt_of_lt_of_le hi hkm)]
    exact List.drop_eq_nil_of_le hk
  generalize ((s.run sends enables n).terminal.sender.ahead P).length = l at hm hidle
  have hsettles : ∃ k, k ≤ 2 ∧ (s.run sends enables (n + l + k)).receiver.busy = false := by
    refine @Receiver.exists_rest (fun k => (s.run sends enables (n + l + k)).receiver.busy)
      (fun k => elapsed D (s.run sends enables (n + l + k))) (159 * D) 2 ?_ ?_ ?_
    · intro k _ hb hb'
      obtain ⟨_, hexpecting, -⟩ := h.run sends enables (n + l + k)
      exact hexpecting.elapsed_clock _ _ hb hb'
    · intro hb
      obtain ⟨_, hexpecting, -⟩ := h.run sends enables (n + l)
      exact (hexpecting.elapsed_of_busy (hidle l (Nat.le_refl l) (by omega)) hb).1
    · intro hb
      obtain ⟨_, hexpecting, -⟩ := h.run sends enables (n + (l + 2))
      exact (hexpecting.elapsed_of_busy (hidle (l + 2) (by omega) (by omega)) hb).2
  obtain ⟨k, hk, hrest⟩ := hsettles
  -- From there on nothing happens any more.
  have hstays : ∀ i, l + k + i ≤ m → (s.run sends enables (n + (l + k + i))).receiver.busy = false := by
    intro i hi
    induction i with
    | zero =>
      rw [Nat.add_zero, ← Nat.add_assoc]
      exact hrest
    | succ i ih =>
      obtain ⟨_, hexpecting, -⟩ := h.run sends enables (n + (l + k + i))
      exact hexpecting.stays_idle (hidle (l + k + i) (by omega) (by omega)) (ih (by omega)) _ _
  have hend := hstays (m - (l + k)) (by omega)
  rw [Nat.add_sub_of_le (by omega)] at hend
  exact ⟨hidle m (by omega) (Nat.le_refl m), hend⟩

/-! ## From the start -/

/-- Both ends at rest, with `D` steps to a tick, and with bits of `period` steps and `gap` of them
    after each frame at the terminal. -/
def start (D count : Nat) (ticked : Bool) (period gap : UInt32) : Downlink :=
  { terminal := { period, gap }, baud := .standing D count ticked }

/-- What comes out in the first `n` steps. -/
structure Faithful (s : Downlink) (sends : Nat → Bytes) (enables : Nat → Bool) (n : Nat) : Prop where
  in_order : s.flagged sends enables n <+: sent sends n
  complete : (s.run sends enables n).terminal.sender.idle = true →
    (s.run sends enables n).receiver.busy = false → s.flagged sends enables n = sent sends n
  errors : ∀ k, k ≤ n → (s.run sends enables k).receiver.frameError = false
  rests : ∀ m, (sent sends n).length * ((10 + s.terminal.gap.toNat) * s.terminal.period.toNat) + 2 ≤ m →
    (∀ k, k < m → sends (n + k) = []) →
    (s.run sends enables (n + m)).terminal.sender.idle = true ∧
      (s.run sends enables (n + m)).receiver.busy = false

theorem Expecting.faithful (h : Expecting D P gap s []) (hs : s.receiver.frameError = false)
    (hempty : s.terminal.sender.idle = true) (sends : Nat → Bytes) (enables : Nat → Bool) (n : Nat) :
    Faithful s sends enables n := by
  let rs : Nat → Receiver := fun k => (s.run sends enables k).receiver
  refine ⟨?_, ?_, ?_, ?_⟩
  · obtain ⟨due, -, hshown⟩ := h.run sends enables n
    exact ⟨_, @Receiver.flagged_of_shown rs n due _ hshown⟩
  · intro ht hr
    obtain ⟨due, hn, hshown⟩ := h.run sends enables n
    obtain ⟨rfl, -⟩ := hn.nothing_of_idle ht hr
    exact (List.append_nil _).symm.trans (@Receiver.flagged_of_shown rs n [] _ hshown)
  · intro k _
    cases k with
    | zero => exact hs
    | succ k =>
      obtain ⟨due, -, hshown⟩ := h.run sends enables (k + 1)
      exact @Receiver.frameError_of_shown rs (k + 1) k due _ hshown (Nat.lt_succ_self k)
  · intro m hm hnone
    have hlength := h.length_ahead_le sends enables n
    rw [h.sender_idle.mp hempty, List.length_nil, Nat.zero_add] at hlength
    rw [h.spacing, h.bits] at hm
    exact h.rests (by omega) hnone

/-- At every divisor, wherever the oversample counter stands, and whatever is sent, if the bits of
    the terminal are within the bounds. -/
theorem faithful_of_start {D count : Nat} {ticked : Bool} {period gap : UInt32} (hbits : 16 * D < 2 ^ 32)
    (hcount : count < D) (hticked : ticked = true → count = 0) (hearly : 9 * period.toNat ≤ 151 * D + 1)
    (hlate : 152 * D + 1 ≤ 10 * period.toNat) (hapart : 159 * D + 1 ≤ (10 + gap.toNat) * period.toNat)
    (sends : Nat → Bytes) (enables : Nat → Bool) (n : Nat) :
    Faithful (start D count ticked period gap) sends enables n := by
  have hexpecting : Expecting D period.toNat gap.toNat (start D count ticked period gap) [] :=
    { tolerated := ⟨hearly, hlate, hapart⟩
      paced := BaudClock.paced_standing hbits hcount hticked
      bits := rfl
      spacing := rfl
      placed := Sender.placed_empty _
      coherent := Receiver.coherent_initial
      catching := .quiet (.high (.high .nothing)) }
  exact hexpecting.faithful rfl rfl sends enables n

/-- At two steps to a tick: bits of 33 steps are as slow as they may be. -/
theorem faithful_of_start_slow :
    let s := start 2 1 false 33 0
    let sends : Nat → Bytes := fun k => if k = 0 then [18, 128] else []
    (16 * 2 < 2 ^ 32 ∧ 1 < 2 ∧ (false = true → 1 = 0) ∧ 9 * (33 : UInt32).toNat ≤ 151 * 2 + 1 ∧
      152 * 2 + 1 ≤ 10 * (33 : UInt32).toNat ∧
      159 * 2 + 1 ≤ (10 + (0 : UInt32).toNat) * (33 : UInt32).toNat) ∧
      Faithful s sends (fun _ => false) 662 ∧ s.flagged sends (fun _ => false) 662 = [18, 128] := by
  intro s sends
  have hrates : 16 * 2 < 2 ^ 32 ∧ 1 < 2 ∧ (false = true → 1 = 0) ∧ 9 * (33 : UInt32).toNat ≤ 151 * 2 + 1 ∧
      152 * 2 + 1 ≤ 10 * (33 : UInt32).toNat ∧
      159 * 2 + 1 ≤ (10 + (0 : UInt32).toNat) * (33 : UInt32).toNat := by decide
  obtain ⟨hbits, hcount, hticked, hearly, hlate, hapart⟩ := hrates
  have hfaithful := faithful_of_start hbits hcount hticked hearly hlate hapart sends (fun _ => false) 662
  exact ⟨⟨hbits, hcount, hticked, hearly, hlate, hapart⟩, hfaithful, by decide +kernel⟩

-- At 34 steps the last data bit is still on the line when the receiver looks at the stop bit.
example : let sends : Nat → Bytes := fun k => if k = 0 then [18] else []
    ((start 2 1 false 34 0).run sends (fun _ => false) 306).receiver.frameError = true := by
  decide +kernel

end

end Downlink

end BrainfuckBoard
