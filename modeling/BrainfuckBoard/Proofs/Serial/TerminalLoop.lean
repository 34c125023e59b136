import BrainfuckBoard.Proofs.Serial.Decoding
import BrainfuckBoard.Proofs.Serial.Reception
import BrainfuckBoard.Terminal

/- A terminal whose line is led back to it. `Decoding` ties the phase of the listening half
   to the levels that the line is still to take and to the frames that are still to be
   decoded, and a step takes the first level off and keeps it (`Decoding.sample`). A frame
   with a low stop bit needs a gap, which is where the line is high again. So the terminal
   hears what it says, whatever is queued while it runs (`returned_of_queued`). -/
namespace BrainfuckBoard

open List (replicate)

namespace Frame

/-- The stop bit is low. -/
def bad (f : Frame) : Bool := !f.stop

theorem div_middle {period s : Nat} (hp : 0 < period) : (period / 2 + period * s) / period = s := by
  rw [Nat.add_mul_div_left _ _ hp, Nat.div_eq_of_lt (Nat.div_lt_self hp (by decide)), Nat.zero_add]

end Frame

/-! ## The listener on the wire -/

namespace Listener

/-- The line at `period` steps to a bit. -/
def signal (period : Nat) (frames : List Frame) : List Bool := frames.flatMap (Frame.wave period)

/-- What the listener makes of the levels to come, and the frames it is to decode.
    1. Between frames the line is high.
    2. After a bad stop bit it is low for some time yet.
    3. In a frame, the level of `n` steps after the fall of the line is the last one seen. -/
inductive Decoding (period : Nat) (l : Listener) : List Bool → List Frame → Prop
  | quiet {pending : List Frame} (high : Nat) (hp : l.phase = .idle) :
      Decoding period l (replicate high true ++ signal period pending) pending
  | blocked {pending : List Frame} (low high : Nat) (hp : l.phase = .blocked) (hhigh : 0 < high) :
      Decoding period l (replicate low false ++ (replicate high true ++ signal period pending)) pending
  | receiving {f : Frame} {pending : List Frame} (n m : Nat) (h : Gathering period f n m l)
      (hclear : f.Clear) :
      Decoding period l ((f.wave period).drop (n + 1) ++ signal period pending) (f :: pending)

section
variable {l l' : Listener} {period n m : Nat} {bits : UInt32} {levels : List Bool} {due : List Frame}
  {f : Frame} {pending sent : List Frame}

/-- The bytes and the errors that have been counted, with those that are to come. -/
structure Owes (l : Listener) (due sent : List Frame) : Prop where
  received : l.received.toList ++ due.filterMap Frame.reading = sent.filterMap Frame.reading
  errors : l.framingErrors + due.countP Frame.bad = sent.countP Frame.bad

/-- The step has not ended a frame. -/
theorem Owes.of_same (h : l.Owes due sent) (hreceived : l'.received = l.received)
    (herrors : l'.framingErrors = l.framingErrors) : l'.Owes due sent :=
  ⟨by rw [hreceived]; exact h.received, by rw [herrors]; exact h.errors⟩

theorem Owes.closed (h : l.Owes (f :: pending) sent) : (l.closed f).Owes pending sent := by
  obtain ⟨hreceived, herrors⟩ := h
  unfold Listener.closed
  cases hstop : f.stop
  · have hreading : f.reading = none := by simp [Frame.reading, hstop]
    have hbad : f.bad = true := by simp [Frame.bad, hstop]
    rw [List.filterMap_cons_none hreading] at hreceived
    rw [List.countP_cons_of_pos hbad] at herrors
    exact ⟨hreceived, by simp only [Bool.false_eq_true, if_false]; omega⟩
  · have hreading : f.reading = some f.byte := by simp [Frame.reading, hstop]
    have hbad : ¬f.bad = true := by simp [Frame.bad, hstop]
    rw [List.filterMap_cons_some hreading] at hreceived
    rw [List.countP_cons_of_neg hbad] at herrors
    exact ⟨by simpa using hreceived, herrors⟩

theorem Decoding.silence (h : l.phase = .idle) : Decoding period l [] [] :=
  @quiet period l [] 0 h

theorem Decoding.queued (h : Decoding period l levels due) (frames : List Frame) :
    Decoding period l (levels ++ signal period frames) (due ++ frames) := by
  have hsignal : ∀ pending, signal period pending ++ signal period frames =
      signal period (pending ++ frames) := fun _ => List.flatMap_append.symm
  cases h with
  | quiet high hp =>
    rw [List.append_assoc, hsignal]
    exact quiet high hp
  | blocked low high hp hhigh =>
    rw [List.append_assoc, List.append_assoc, hsignal]
    exact blocked low high hp hhigh
  | receiving n m h hclear =>
    rw [List.append_assoc, hsignal]
    exact receiving n m h hclear

/-- When the line has gone out the listener has heard everything. -/
theorem Decoding.done (h : Decoding period l [] due) (hp : 0 < period) : due = [] ∧ l.phase = .idle := by
  generalize hlevels : ([] : List Bool) = levels at h
  cases h with
  | quiet high hidle =>
    cases due with
    | nil => exact ⟨rfl, hidle⟩
    | cons f pending =>
      rw [signal, List.flatMap_cons, Frame.wave_start hp] at hlevels
      simp at hlevels
  | blocked low high _ hhigh =>
    have hlength := congrArg List.length hlevels
    simp only [List.length_nil, List.length_append, List.length_replicate] at hlength
    omega
  | @receiving f pending n m h hclear =>
    -- The listener leaves a frame in the middle of the stop bit.
    have hlength := congrArg List.length hlevels
    have hupper := h.upper
    have hten := Nat.mul_le_mul_right period (Frame.ten_le_length (f := f))
    have hnine : period * (m + 1) ≤ period * 9 := Nat.mul_le_mul_left _ (Nat.succ_le_succ h.le_eight)
    simp only [List.length_nil, List.length_append, List.length_drop, Frame.length_wave] at hlength
    omega

/-- What a step makes of a listener that is given the first of the levels. -/
def Samples (bits : UInt32) (l : Listener) (levels : List Bool) (due sent : List Frame) : Prop :=
  ∃ due', Decoding bits.toNat (l.sample bits (levels.headD true)) levels.tail due' ∧ due' <:+ due ∧
    (l.sample bits (levels.headD true)).Owes due' sent

theorem Decoding.samples {due' : List Frame} (h : Decoding bits.toNat l' levels.tail due')
    (hsample : l.sample bits (levels.headD true) = l') (hsuffix : due' <:+ due) (howes : l'.Owes due' sent) :
    Samples bits l levels due sent := by
  subst hsample
  exact ⟨due', h, hsuffix, howes⟩

theorem samples_quiet {high : Nat} (hidle : l.phase = .idle) (hp : 0 < bits.toNat) (howes : l.Owes due sent)
    (hclear : ∀ f ∈ due, f.Clear) : Samples bits l (replicate high true ++ signal bits.toNat due) due sent := by
  have hhigh : l.sample bits true = l := by simp [Listener.sample, hidle]
  cases high with
  | succ k => exact (Decoding.quiet k hidle).samples hhigh (List.suffix_refl _) howes
  | zero =>
    cases due with
    | nil => exact (Decoding.silence hidle).samples hhigh (List.suffix_refl _) howes
    | cons f pending =>
      -- The line falls for the frame in front.
      obtain ⟨hgather, hreceived, herrors⟩ := gathering_start (f := f) hidle hp
      have hnext : Decoding bits.toNat (l.sample bits false)
          ((f.wave bits.toNat).drop 1 ++ signal bits.toNat pending) (f :: pending) :=
        .receiving 0 0 hgather (hclear f List.mem_cons_self)
      have hlevels : replicate 0 true ++ signal bits.toNat (f :: pending) =
          false :: ((f.wave bits.toNat).drop 1 ++ signal bits.toNat pending) := by
        rw [List.replicate_zero, List.nil_append, signal, List.flatMap_cons, Frame.wave_start hp]
        rfl
      rw [hlevels]
      exact hnext.samples rfl (List.suffix_refl _) (howes.of_same hreceived herrors)

theorem samples_blocked {low high : Nat} (hblocked : l.phase = .blocked) (hhigh : 0 < high)
    (howes : l.Owes due sent) :
    Samples bits l (replicate low false ++ (replicate high true ++ signal bits.toNat due)) due sent := by
  cases low with
  | succ k =>
    have hlow : l.sample bits false = l := by simp [Listener.sample, hblocked]
    exact (Decoding.blocked k high hblocked hhigh).samples hlow (List.suffix_refl _) howes
  | zero =>
    obtain ⟨k, rfl⟩ : ∃ k, high = k + 1 := ⟨high - 1, by omega⟩
    have hfree : l.sample bits true = { l with phase := .idle } := by simp [Listener.sample, hblocked]
    exact (Decoding.quiet k rfl).samples hfree (List.suffix_refl _) (howes.of_same rfl rfl)

/-- The rest of a frame after the middle of its stop bit. -/
theorem Decoding.after_stop (hclear : f.Clear) (hp : 0 < period) {e : Nat} (h₀ : 9 * period ≤ e)
    (h₁ : e ≤ 10 * period) :
    Decoding period (l.closed f) ((f.wave period).drop e ++ signal period pending) pending := by
  rw [Frame.drop_wave_stop hp h₀ h₁]
  cases hstop : f.stop
  · have hgap : 1 ≤ f.gap := hclear.resolve_left (by simp [hstop])
    rw [List.append_assoc]
    exact blocked _ _ (by simp [Listener.closed, hstop]) (Nat.mul_pos hgap hp)
  · rw [List.replicate_append_replicate]
    exact quiet _ (by simp [Listener.closed, hstop])

theorem samples_receiving (h : Gathering bits.toNat f n m l) (hclear : f.Clear) (hp : 0 < bits.toNat)
    (hbound : 9 * bits.toNat + bits.toNat / 2 < 2 ^ 32) (howes : l.Owes (f :: pending) sent) :
    Samples bits l ((f.wave bits.toNat).drop (n + 1) ++ signal bits.toNat pending) (f :: pending) sent := by
  have hhalf : bits.toNat / 2 < bits.toNat := Nat.div_lt_self hp (by decide)
  have hupper := h.upper
  have hnine : bits.toNat * (m + 1) ≤ bits.toNat * 9 :=
    Nat.mul_le_mul_left _ (Nat.succ_le_succ h.le_eight)
  have hten := Nat.mul_le_mul_right bits.toNat (Frame.ten_le_length (f := f))
  have hlevel : ∀ s, n + 1 = bits.toNat / 2 + bits.toNat * s →
      f.level ((n + 1) / bits.toNat) = f.level s := by
    intro s hs
    rw [hs, Frame.div_middle hp]
  rw [Frame.drop_wave (by omega), List.cons_append]
  rcases h.sample hp (by omega) hlevel with ⟨-, ⟨m', hgather⟩, hreceived, herrors⟩ | ⟨hlast, hclosed⟩
  · exact (Decoding.receiving (n + 1) m' hgather hclear).samples rfl (List.suffix_refl _)
      (howes.of_same hreceived herrors)
  · have hnext : Decoding bits.toNat (l.closed f)
        ((f.wave bits.toNat).drop (n + 1 + 1) ++ signal bits.toNat pending) pending :=
      .after_stop hclear hp (by omega) (by omega)
    exact hnext.samples hclosed (List.suffix_cons _ _) howes.closed

theorem Decoding.sample (h : Decoding bits.toNat l levels due) (hp : 0 < bits.toNat)
    (hbound : 9 * bits.toNat + bits.toNat / 2 < 2 ^ 32) (howes : l.Owes due sent)
    (hclear : ∀ f ∈ due, f.Clear) : Samples bits l levels due sent := by
  cases h with
  | quiet high hidle => exact samples_quiet hidle hp howes hclear
  | blocked low high hblocked hhigh => exact samples_blocked hblocked hhigh howes
  | receiving n m hgather hfirst => exact samples_receiving hgather hfirst hp hbound howes

end

end Listener

/-! ## The terminal -/

namespace Sender

/-- A step takes one frame off the queue at most. -/
theorem queue_advance (s : Sender) (period : UInt32) :
    (s.advance period).queue = s.queue ∨ ∃ frame, s.queue = frame :: (s.advance period).queue := by
  unfold advance
  split
  · exact .inl rfl
  · next frame rest hq =>
    split
    · exact .inl rfl
    · split
      · exact .inl rfl
      · exact .inr ⟨frame, hq⟩

end Sender

namespace Terminal

/-- What is done to a terminal whose line is led back to it. -/
inductive Move
  | send (bytes : Bytes)
  | sendFrame (byte : UInt8) (stop : Bool)
  | setGap (bits : UInt32)
  | step
deriving DecidableEq, Repr

def move (t : Terminal) : Move → Terminal
  | .send bytes => t.send bytes
  | .sendFrame byte stop => t.sendFrame byte stop
  | .setGap bits => { t with gap := bits }
  | .step => t.loopback

/-- The frames that a move queues. -/
def queuing (t : Terminal) : Move → List Frame
  | .send bytes => bytes.map fun byte => t.frame byte true
  | .sendFrame byte stop => [t.frame byte stop]
  | .setGap _ | .step => []

/-- The frames by which the queue is shorter after a move. -/
def leaving (t : Terminal) (m : Move) : List Frame :=
  t.sender.queue.take (t.sender.queue.length - (t.move m).sender.queue.length)

def moves (t : Terminal) (ms : List Move) : Terminal := ms.foldl move t

/-- The frames that have been queued in some moves. -/
def queued (t : Terminal) : List Move → List Frame
  | [] => []
  | m :: ms => t.queuing m ++ (t.move m).queued ms

/-- The frames that have left the queue in some moves. -/
def departed (t : Terminal) : List Move → List Frame
  | [] => []
  | m :: ms => t.leaving m ++ (t.move m).departed ms

section
variable {t : Terminal} {sent : List Frame}

/-- What has been queued has been decoded, or is on the way. -/
structure Turning (t : Terminal) (sent : List Frame) : Prop where
  placed : t.sender.Placed t.period.toNat
  hears : ∃ due, Listener.Decoding t.period.toNat t.listener (t.sender.ahead t.period.toNat) due ∧
    (∀ f ∈ due, f.Clear) ∧ t.listener.Owes due sent

theorem turning_reset (t : Terminal) : t.reset.Turning [] where
  placed := Sender.placed_empty _
  hears := ⟨[], .silence rfl, nofun, rfl, rfl⟩

theorem Turning.enqueue (h : t.Turning sent) (hp : 0 < t.period.toNat) {frames : List Frame}
    (hclear : ∀ f ∈ frames, f.Clear) :
    ({ t with sender := t.sender.enqueue frames } : Terminal).Turning (sent ++ frames) := by
  obtain ⟨due, hdecoding, hdue, hreceived, herrors⟩ := h.hears
  obtain ⟨hplaced, hahead⟩ := Sender.ahead_enqueue h.placed hp frames
  refine ⟨hplaced, due ++ frames, ?_, ?_, ?_, ?_⟩
  · rw [hahead]
    exact hdecoding.queued frames
  · intro f hf
    exact (List.mem_append.mp hf).elim (hdue f) (hclear f)
  · rw [List.filterMap_append, List.filterMap_append, ← List.append_assoc, hreceived]
  · rw [List.countP_append, List.countP_append, ← Nat.add_assoc, herrors]

theorem Turning.loopback (h : t.Turning sent) (hp : 0 < t.period.toNat)
    (hbound : 9 * t.period.toNat + t.period.toNat / 2 < 2 ^ 32) : t.loopback.Turning sent := by
  obtain ⟨due, hdecoding, hdue, howes⟩ := h.hears
  obtain ⟨hplaced, hahead⟩ := Sender.ahead_advance h.placed rfl
  obtain ⟨due', hnext, hsuffix, howes'⟩ := hdecoding.sample hp hbound howes hdue
  rw [← Sender.line_eq h.placed, ← hahead] at hnext
  rw [← Sender.line_eq h.placed] at howes'
  exact ⟨hplaced, due', hnext, fun f hf => hdue f (hsuffix.subset hf), howes'⟩

theorem Turning.move (h : t.Turning sent) (hp : 0 < t.period.toNat)
    (hbound : 9 * t.period.toNat + t.period.toNat / 2 < 2 ^ 32) {m : Move}
    (hclear : ∀ f ∈ t.queuing m, f.Clear) : (t.move m).Turning (sent ++ t.queuing m) := by
  cases m with
  | send bytes => exact h.enqueue hp hclear
  | sendFrame byte stop => exact h.enqueue hp hclear
  | setGap bits =>
    rw [queuing, List.append_nil]
    exact ⟨h.placed, h.hears⟩
  | step =>
    rw [queuing, List.append_nil]
    exact h.loopback hp hbound

theorem period_move (t : Terminal) (m : Move) : (t.move m).period = t.period := by
  cases m <;> rfl

theorem period_moves (t : Terminal) (ms : List Move) : (t.moves ms).period = t.period := by
  induction ms generalizing t with
  | nil => rfl
  | cons m ms ih => exact (ih (t.move m)).trans (period_move t m)

/-- A move takes frames off the front of the queue and puts frames at its end. -/
theorem queue_move (t : Terminal) (m : Move) :
    t.sender.queue ++ t.queuing m = t.leaving m ++ (t.move m).sender.queue := by
  cases m with
  | send bytes => simp [leaving, move, queuing, send, Sender.enqueue]
  | sendFrame byte stop => simp [leaving, move, queuing, sendFrame, Sender.enqueue]
  | setGap bits => simp [leaving, move, queuing]
  | step =>
    rw [queuing, List.append_nil, leaving]
    change t.sender.queue = t.sender.queue.take (_ - (t.sender.advance t.period).queue.length) ++
      (t.sender.advance t.period).queue
    rcases t.sender.queue_advance t.period with hsame | ⟨frame, hq⟩
    · rw [hsame, Nat.sub_self]
      rfl
    · rw [hq, List.length_cons, Nat.add_sub_cancel_left]
      rfl

theorem queued_eq (t : Terminal) : ∀ ms : List Move,
    t.sender.queue ++ t.queued ms = t.departed ms ++ (t.moves ms).sender.queue := by
  intro ms
  induction ms generalizing t with
  | nil => exact List.append_nil _
  | cons m ms ih =>
    calc t.sender.queue ++ (t.queuing m ++ (t.move m).queued ms)
      _ = t.leaving m ++ ((t.move m).sender.queue ++ (t.move m).queued ms) := by
        rw [← List.append_assoc, queue_move, List.append_assoc]
      _ = t.leaving m ++ (t.move m).departed ms ++ ((t.move m).moves ms).sender.queue := by
        rw [ih, List.append_assoc]

theorem Turning.moves (h : t.Turning sent) (hp : 0 < t.period.toNat)
    (hbound : 9 * t.period.toNat + t.period.toNat / 2 < 2 ^ 32) {ms : List Move}
    (hclear : ∀ f ∈ t.queued ms, f.Clear) : (t.moves ms).Turning (sent ++ t.queued ms) := by
  induction ms generalizing t sent with
  | nil =>
    rw [queued, List.append_nil]
    exact h
  | cons m ms ih =>
    have hfirst : ∀ f ∈ t.queuing m, f.Clear := fun f hf => hclear f (List.mem_append_left _ hf)
    have hrest : ∀ f ∈ (t.move m).queued ms, f.Clear := fun f hf => hclear f (List.mem_append_right _ hf)
    have hmove : (t.move m).Turning (sent ++ t.queuing m) := h.move hp hbound hfirst
    rw [queued, ← List.append_assoc]
    rw [← period_move t m] at hp hbound
    exact ih hmove hp hbound hrest

/-- Every step sends one level. -/
theorem ahead_steps (h : t.sender.Placed t.period.toNat) : ∀ n,
    (t.moves (replicate n .step)).sender.Placed t.period.toNat ∧
      (t.moves (replicate n .step)).sender.ahead t.period.toNat = (t.sender.ahead t.period.toNat).drop n
  | 0 => ⟨h, rfl⟩
  | n + 1 => by
    obtain ⟨hplaced, hahead⟩ := ahead_steps h n
    have hstep : t.moves (replicate (n + 1) .step) = (t.moves (replicate n .step)).loopback := by
      rw [List.replicate_succ', moves, List.foldl_append]
      rfl
    have hperiod : (t.moves (replicate n .step)).period.toNat = t.period.toNat := by rw [period_moves]
    obtain ⟨hplaced', hahead'⟩ := Sender.ahead_advance hplaced hperiod
    rw [hahead, List.tail_drop] at hahead'
    rw [hstep]
    exact ⟨hplaced', hahead'⟩

theorem drains (h : t.sender.Placed t.period.toNat) {n : Nat}
    (hn : (t.sender.ahead t.period.toNat).length ≤ n) :
    (t.moves (replicate n .step)).sender.idle = true := by
  obtain ⟨hplaced, hahead⟩ := ahead_steps h n
  apply (Sender.ahead_eq_nil_iff hplaced).mp
  rw [hahead]
  exact List.drop_eq_nil_of_le hn

/-- What has become of the frames that have been queued. The queue is empty after as many steps
    as there are levels to come. -/
structure Returned (t : Terminal) (ms : List Move) : Prop where
  in_order : t.queued ms = t.departed ms ++ (t.moves ms).sender.queue
  received : (t.moves ms).listener.received.toList <+: (t.queued ms).filterMap Frame.reading
  errors : (t.moves ms).listener.framingErrors ≤ (t.queued ms).countP Frame.bad
  complete : (t.moves ms).sender.idle = true →
    (t.moves ms).listener.received.toList = (t.queued ms).filterMap Frame.reading ∧
    (t.moves ms).listener.framingErrors = (t.queued ms).countP Frame.bad ∧
    (t.moves ms).listener.idle = true
  drains : ∀ n, ((t.moves ms).sender.ahead t.period.toNat).length ≤ n →
    (t.moves (ms ++ replicate n .step)).sender.idle = true

/-- From a reset on, whatever is queued between the steps. -/
theorem returned_of_queued (hp : 2 ≤ t.period.toNat)
    (hbound : 9 * t.period.toNat + t.period.toNat / 2 < 2 ^ 32) {ms : List Move}
    (hclear : ∀ f ∈ t.reset.queued ms, f.Clear) : t.reset.Returned ms := by
  have hpos : 0 < t.reset.period.toNat := Nat.lt_of_lt_of_le (by decide) hp
  have hturning := t.turning_reset.moves hpos hbound hclear
  obtain ⟨due, hdecoding, -, hreceived, herrors⟩ := hturning.hears
  rw [List.nil_append] at hreceived herrors
  refine ⟨t.reset.queued_eq ms, ⟨_, hreceived⟩, ?_, ?_, ?_⟩
  · rw [← herrors]
    exact Nat.le_add_right _ _
  · intro hidle
    rw [(Sender.ahead_eq_nil_iff hturning.placed).mpr hidle, period_moves] at hdecoding
    obtain ⟨rfl, hphase⟩ := hdecoding.done hpos
    rw [List.filterMap_nil, List.append_nil] at hreceived
    exact ⟨hreceived, herrors, by simp [Listener.idle, hphase]⟩
  · intro n hn
    rw [← period_moves t.reset ms] at hn
    rw [moves, List.foldl_append]
    exact drains hturning.placed hn

/-- At two steps to a bit: frames without a gap, and a bad one that is queued while they go out. -/
theorem returned_of_queued_bad :
    let t : Terminal := { period := 2, gap := 0 }
    let ms : List Move := [.send [1, 255], .step, .step, .step, .setGap 1, .sendFrame 170 false, .step,
      .setGap 0, .send [0, 66]] ++ replicate 98 .step
    (2 ≤ t.period.toNat ∧ 9 * t.period.toNat + t.period.toNat / 2 < 2 ^ 32 ∧
      ∀ f ∈ t.reset.queued ms, f.Clear) ∧
    t.reset.Returned ms ∧ (t.reset.moves ms).sender.idle = true ∧
      (t.reset.moves ms).listener.received = #[1, 255, 0, 66] ∧
      (t.reset.moves ms).listener.framingErrors = 1 := by
  intro t ms
  have hclear : ∀ f ∈ t.reset.queued ms, f.stop = true ∨ 1 ≤ f.gap := by decide +kernel
  exact ⟨⟨by decide, by decide, hclear⟩, returned_of_queued (by decide) (by decide) hclear,
    by decide +kernel, by decide +kernel, by decide +kernel⟩

/-- Without a gap the line does not get high after a bad stop bit, and the next frame is lost. -/
example :
    let t : Terminal := { period := 2, gap := 0 }
    ¬t.reset.Returned ([.sendFrame 0 false, .send [254]] ++ replicate 40 .step) :=
  fun h => absurd (h.complete (by decide +kernel)).1 (by decide +kernel)

end

end Terminal

end BrainfuckBoard
