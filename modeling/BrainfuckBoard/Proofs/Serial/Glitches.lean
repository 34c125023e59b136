import BrainfuckBoard.Proofs.Serial.Oversampling
import BrainfuckBoard.Proofs.Serial.Sampling
import BrainfuckBoard.Text.Bytes

/- A line with low spikes between its frames. At `D` steps to a tick, tick `j` after a fall is
   less than `D` steps before `j * D` (`Paced.tick_window`). So a spike of `7 * D` steps is over at
   the eighth tick, a frame is sampled in the middle of its bits, and in both cases the receiver is
   idle again when the stretch of the line ends (`Stretch.passes`). Stretch after stretch, it shows
   the bytes of the frames and nothing else (`recovered_of_stretches`). -/
namespace BrainfuckBoard

/-! ## The ticks of the clock -/

namespace BaudClock

section
variable {c : BaudClock} {sending : Nat → Bool} {D t j k : Nat}

/-- The oversample ticks, step by step. -/
def ticks (c : BaudClock) (sending : Nat → Bool) (n : Nat) : Bool := (c.run sending n).oversampleTick

theorem Paced.lag_after (h : c.Paced D) (sending : Nat → Bool) (n : Nat) :
    0 < (c.run sending (n + 1)).lag ∧ (c.run sending (n + 1)).lag ≤ D := by
  have hn := h.run sending n
  rw [BaudClock.run, hn.lag_clock]
  exact Receiver.lag_next h.pos hn.lag_le hn.tick_iff

/-- The ticks make up for the steps, but for the lag. -/
theorem Paced.steps_between (h : c.Paced D) (sending : Nat → Bool) (t : Nat) : ∀ d,
    ticksBetween (c.ticks sending) t (t + 1 + d) * D + (c.run sending (t + 1 + d)).lag =
      (c.run sending (t + 1)).lag + d
  | 0 => by
    rw [Nat.add_zero, ticksBetween_start, Nat.zero_mul, Nat.zero_add]
    rfl
  | d + 1 => by
    have ih := Paced.steps_between h sending t d
    have hn := h.run sending (t + 1 + d)
    have hsucc := @ticksBetween_succ (c.ticks sending) t (t + 1 + d) (by omega)
    have hnext := Receiver.elapsed_next hsucc hn.tick_iff
    rw [← Nat.add_assoc (t + 1), BaudClock.run, hn.lag_clock, ← Nat.add_assoc, ← ih]
    exact hnext

/-- Tick `j + 1` comes in one of `D` steps. -/
theorem Paced.tick_window (h : c.Paced D) (hk : IsTick (c.ticks sending) t (j + 1) k) :
    t + j * D < k ∧ k ≤ t + (j + 1) * D := by
  obtain ⟨d, rfl⟩ : ∃ d, k = t + 1 + d := ⟨k - (t + 1), by have := hk.after; omega⟩
  obtain ⟨hpos, hle⟩ := h.lag_after sending t
  have hsteps := h.steps_between sending t d
  rw [Nat.succ.inj hk.counted, (h.run sending _).tick_iff.mp hk.ticked] at hsteps
  rw [Nat.succ_mul]
  omega

/-- Tick `8 + 16 * m` is in the middle of bit `m`. -/
theorem Paced.tick_slot {m : Nat} (h : c.Paced D) (hk : IsTick (c.ticks sending) t (8 + 16 * m) k) :
    (k - t) / (16 * D) = m := by
  rw [show 8 + 16 * m = 7 + 16 * m + 1 by omega] at hk
  obtain ⟨hafter, hbefore⟩ := h.tick_window hk
  have hD := h.pos
  have hfew : t + (7 + 16 * m + 1) * D - k < D := by
    rw [Nat.succ_mul]
    omega
  have hsum : k - t + (t + (7 + 16 * m + 1) * D - k) = (8 + 16 * m) * D := by
    rw [show 8 + 16 * m = 7 + 16 * m + 1 by omega]
    omega
  exact Listening.slot_eq hfew hsum

theorem Paced.exists_tick (h : c.Paced D) (sending : Nat → Bool) (t j : Nat) :
    ∃ k, IsTick (c.ticks sending) t (j + 1) k := by
  have hmany : j + 1 ≤ ticksBetween (c.ticks sending) t (t + 1 + (j + 1) * D) := by
    apply Nat.lt_of_mul_lt_mul_right (a := D)
    obtain ⟨hpos, -⟩ := h.lag_after sending t
    have hlag := (h.run sending (t + 1 + (j + 1) * D)).lag_le
    have hsteps := h.steps_between sending t ((j + 1) * D)
    have hmul : (j + 1) * D = j * D + D := Nat.succ_mul j D
    omega
  obtain ⟨k, -, hk⟩ := exists_isTick (Nat.succ_pos j) (by omega) hmany
  exact ⟨k, hk⟩

end

end BaudClock

namespace Receiver

/-- What the receiver shows in the first `n` steps. -/
def shownIn (line ticks : Nat → Bool) (n : Nat) : List (Option UInt8) :=
  (List.range n).flatMap fun k => (run line ticks (k + 1)).shown

/-- The bytes that the receiver has flagged after the first `n` steps. -/
def flagged (line ticks : Nat → Bool) (n : Nat) : Bytes :=
  (List.range n).flatMap fun k => (run line ticks (k + 1)).byte?.toList

/-- From step `m` to step `n` the receiver shows these bytes and nothing else, and it is idle then. -/
structure Passes (line ticks : Nat → Bool) (m n : Nat) (out : Bytes) : Prop where
  shown : shownIn line ticks n = shownIn line ticks m ++ out.map some
  idle : (run line ticks n).phase = .idle

section
variable {line ticks : Nat → Bool} {t k m n : Nat} {f : Frame} {out out' : Bytes}

/-! ## What is shown -/

theorem shownIn_succ : shownIn line ticks (n + 1) = shownIn line ticks n ++ (run line ticks (n + 1)).shown := by
  simp [shownIn, List.range_succ]

theorem shown_of_not_flags (h : ¬ (run line ticks n).Flags) : (run line ticks n).shown = [] :=
  shown_eq_nil (Bool.eq_false_iff.mpr fun hv => h (.inl hv)) (Bool.eq_false_iff.mpr fun he => h (.inr he))

theorem shownIn_silent (hmn : m ≤ n) (h : ∀ k, m ≤ k → k < n → ¬ (run line ticks (k + 1)).Flags) :
    shownIn line ticks n = shownIn line ticks m := by
  induction n, hmn using Nat.le_induction with
  | base => rfl
  | succ n hmn ih =>
    rw [shownIn_succ, shown_of_not_flags (h n hmn (Nat.lt_succ_self n)), List.append_nil]
    exact ih fun k hk hlt => h k hk (Nat.lt_succ_of_lt hlt)

theorem shownIn_mono (hmn : m ≤ n) : shownIn line ticks m <+: shownIn line ticks n := by
  induction n, hmn using Nat.le_induction with
  | base => exact List.prefix_rfl
  | succ n _ ih =>
    rw [shownIn_succ]
    exact ih.trans (List.prefix_append _ _)

theorem flagged_eq : flagged line ticks n = (shownIn line ticks n).filterMap id := by
  simp only [flagged, shownIn, List.filterMap_flatMap, reduce_shown]

theorem Passes.trans (h : Passes line ticks m k out) (h' : Passes line ticks k n out') :
    Passes line ticks m n (out ++ out') where
  shown := by rw [h'.shown, h.shown, List.map_append, List.append_assoc]
  idle := h'.idle

theorem Passes.shown_all (h : Passes line ticks 0 n out) :
    shownIn line ticks n ++ ([] : List Frame).map Frame.reading = out.map some := by
  rw [h.shown, List.map_nil, List.append_nil]
  rfl

theorem Passes.flagged (h : Passes line ticks 0 n out) : flagged line ticks n = out := by
  have hbytes := @flagged_of_shown (run line ticks) n [] out h.shown_all
  rwa [List.filterMap_nil, List.append_nil] at hbytes

theorem Passes.flagged_before (h : Passes line ticks 0 n out) (hmn : m ≤ n) :
    Receiver.flagged line ticks m <+: out := by
  rw [← h.flagged, flagged_eq, flagged_eq]
  exact (shownIn_mono hmn).filterMap id

theorem Passes.frameError (h : Passes line ticks 0 n out) : ∀ k, k ≤ n → (run line ticks k).frameError = false
  | 0, _ => rfl
  | k + 1, hk => @frameError_of_shown (run line ticks) n k [] out h.shown_all hk

/-! ## Stretches of the line -/

theorem not_flags_of_idle (h : (run line ticks n).phase = .idle) : ¬ (run line ticks (n + 1)).Flags := by
  intro hflags
  obtain ⟨-, byte, hstop⟩ := stop_of_flags hflags
  rw [h] at hstop
  cases hstop

/-- While the line is high an idle receiver stays idle. -/
theorem passes_high (hidle : (run line ticks m).phase = .idle) (hmn : m ≤ n)
    (hhigh : ∀ k, m ≤ k → k < n → levelAt line k = true) : Passes line ticks m n [] := by
  induction n, hmn using Nat.le_induction with
  | base => exact ⟨(List.append_nil _).symm, hidle⟩
  | succ n hmn ih =>
    have hn := ih fun k hk hlt => hhigh k hk (Nat.lt_succ_of_lt hlt)
    have hnext : Passes line ticks n (n + 1) [] := by
      refine ⟨?_, (sampling_of_run line ticks).quiet n hn.idle (hhigh n hmn (Nat.lt_succ_self n))⟩
      rw [shownIn_succ, shown_of_not_flags (not_flags_of_idle hn.idle)]
      rfl
    exact hn.trans hnext

/-- As long as the receiver is in the frame, only tick 152 can show something. -/
theorem Notices.tick_of_flags (h : Notices line ticks t)
    (hwithin : ∀ n, t < n → n ≤ k → Within line ticks t f n) (ht : t ≤ n) (hn : n ≤ k)
    (hflags : (run line ticks (n + 1)).Flags) : IsTick ticks t 152 n := by
  rcases Nat.eq_or_lt_of_le ht with rfl | hlt
  · exact absurd hflags (not_flags_of_idle h.idle)
  · exact (hwithin n hlt hn).tick_of_flags hflags

/-- A fall of the line that is over at the eighth tick. -/
theorem Notices.passes_glitch (h : Notices line ticks t) (hk : IsTick ticks t 8 k)
    (hhigh : levelAt line k = true) : Passes line ticks t (k + 1) [] := by
  obtain ⟨f, hf⟩ := exists_samples line ticks t
  have hwithin : ∀ n, t < n → n ≤ k → Within line ticks t f n := fun n ht hn =>
    h.stays hf ht fun _ hlt => not_ends_early (hk.lt_of_le hn) hlt
  have hsilent : ∀ n, t ≤ n → n < k + 1 → ¬ (run line ticks (n + 1)).Flags := by
    intro n ht hn hflags
    have htick := h.tick_of_flags hwithin ht (Nat.le_of_lt_succ hn) hflags
    have hapart := hk.apart htick (by decide)
    omega
  refine ⟨?_, (hwithin k hk.after (Nat.le_refl k)).leaves hf (.glitch hk hhigh)⟩
  rw [shownIn_silent (Nat.le_succ_of_le (Nat.le_of_lt hk.after)) hsilent]
  exact (List.append_nil _).symm

/-- A frame with a good stop bit: its byte shows at tick 152, and at tick 159 it is over. -/
theorem Notices.passes_frame (h : Notices line ticks t) (hf : Samples line ticks t f) (hgood : f.stop = true)
    (hconfirmed : Confirmed line ticks t) (hm : IsTick ticks t 152 m) (hk : IsTick ticks t 159 k) :
    Passes line ticks t (k + 1) [f.byte] := by
  have hmk : m < k := by
    have hapart := hm.apart hk (by decide)
    omega
  have hwithin : ∀ n, t < n → n ≤ k → Within line ticks t f n := fun n ht hn =>
    hconfirmed.within h hf ht (hk.lt_of_le hn)
  have hsilent : ∀ n, t ≤ n → n < k + 1 → n ≠ m → ¬ (run line ticks (n + 1)).Flags :=
    fun n ht hn hne hflags => hne ((h.tick_of_flags hwithin ht (Nat.le_of_lt_succ hn) hflags).unique hm)
  have hbyte : (run line ticks (m + 1)).shown = [some f.byte] := by
    have hhigh : levelAt line m = true := by
      rw [hf 9 m (by decide) (by decide) hm, Frame.level_stop, hgood]
    rw [(hwithin m hm.after (Nat.le_of_lt hmk)).stop hm, if_pos hhigh]
    rfl
  refine ⟨?_, (hwithin k hk.after (Nat.le_refl k)).leaves hf (.frame hconfirmed hk)⟩
  calc shownIn line ticks (k + 1)
    _ = shownIn line ticks (m + 1) := shownIn_silent (Nat.succ_le_succ (Nat.le_of_lt hmk)) fun n hn hlt =>
      hsilent n (Nat.le_trans (Nat.le_of_lt hm.after) (Nat.le_of_lt hn)) hlt (Nat.ne_of_gt hn)
    _ = shownIn line ticks m ++ [some f.byte] := by rw [shownIn_succ, hbyte]
    _ = shownIn line ticks t ++ [some f.byte] := by
      rw [shownIn_silent (Nat.le_of_lt hm.after) fun n hn hlt =>
        hsilent n hn (Nat.lt_trans hlt (Nat.lt_succ_of_lt hmk)) (Nat.ne_of_lt hlt)]

end

/-! ## A line in stretches -/

/-- From step `t` on the levels are these. -/
def Reads (level : Nat → Bool) (t : Nat) (levels : List Bool) : Prop :=
  ∀ i value, levels[i]? = some value → level (t + i) = value

/-- A piece of a line, in steps: high, a low spike with high after it, or a good frame. -/
inductive Stretch
  | idle (high : Nat)
  | glitch (low high : Nat)
  | frame (byte : UInt8)

namespace Stretch

/-- The levels, one to a step, at `D` steps to a tick. -/
def levels (D : Nat) : Stretch → List Bool
  | idle high => List.replicate high true
  | glitch low high => List.replicate low false ++ List.replicate high true
  | frame byte => Frame.wave (16 * D) { byte, gap := 0 }

/-- A spike is not longer than seven ticks, and the line is high for more than eight after it. -/
def Short (D : Nat) : Stretch → Prop
  | glitch low high => 1 ≤ low ∧ low ≤ 7 * D ∧ 8 * D + 1 ≤ high
  | idle _ | frame _ => True

def bytes : Stretch → Bytes
  | frame byte => [byte]
  | idle _ | glitch _ _ => []

end Stretch

section
variable {level line : Nat → Bool} {c : BaudClock} {sending : Nat → Bool} {D t n : Nat}
  {levels levels' : List Bool} {stretches : List Stretch}

theorem Reads.append (h : Reads level t (levels ++ levels')) :
    Reads level t levels ∧ Reads level (t + levels.length) levels' := by
  refine ⟨fun i value hi => h i value ?_, fun i value hi => ?_⟩
  · obtain ⟨hlt, -⟩ := List.getElem?_eq_some_iff.mp hi
    rw [List.getElem?_append_left hlt, hi]
  · rw [Nat.add_assoc]
    apply h
    rw [List.getElem?_append_right (Nat.le_add_right _ _), Nat.add_sub_cancel_left, hi]

theorem Reads.replicate {value : Bool} (h : Reads level t (List.replicate n value)) :
    ∀ k, t ≤ k → k < t + n → level k = value := by
  intro k hk hlt
  have hk' := h (k - t) value (by rw [List.getElem?_replicate, if_pos (by omega)])
  rwa [Nat.add_sub_cancel' hk] at hk'

theorem Reads.wave {f : Frame} {period e : Nat} (h : Reads level t (f.wave period))
    (he : e < f.length * period) : level (t + e) = f.level (e / period) := by
  apply h
  rw [Frame.wave, List.getElem?_map, List.getElem?_range he]
  rfl

/-- The registers put two high levels before the line. -/
theorem reads_levelAt (levels : List Bool) :
    Reads (levelAt fun k => levels.getD k true) 0 (true :: true :: levels) := by
  intro i value hi
  rw [Nat.zero_add]
  match i with
  | 0 | 1 => exact Option.some.inj hi
  | i + 2 =>
    show levels.getD i true = value
    rw [List.getD_eq_getElem?_getD]
    exact congrArg (Option.getD · true) hi

theorem passes_glitch {low high : Nat} (hc : c.Paced D) (hshort : (Stretch.glitch low high).Short D)
    (hidle : (run line (c.ticks sending) t).phase = .idle)
    (hreads : Reads (levelAt line) t ((Stretch.glitch low high).levels D)) :
    Passes line (c.ticks sending) t (t + (low + high)) [] := by
  obtain ⟨hpos, hlow, hhigh⟩ := hshort
  obtain ⟨hlows, hhighs⟩ := hreads.append
  rw [List.length_replicate] at hhighs
  have hnotices : Notices line (c.ticks sending) t :=
    ⟨hidle, hlows.replicate t (Nat.le_refl t) (by omega)⟩
  -- At the eighth tick the spike is over.
  obtain ⟨k, hk⟩ := hc.exists_tick sending t 7
  obtain ⟨hafter, hbefore⟩ := hc.tick_window hk
  have hspike : Passes line (c.ticks sending) t (k + 1) [] :=
    hnotices.passes_glitch hk (hhighs.replicate k (by omega) (by omega))
  have hrest : Passes line (c.ticks sending) (k + 1) (t + (low + high)) [] :=
    passes_high hspike.idle (by omega) fun m hm hlt => hhighs.replicate m (by omega) (by omega)
  exact hspike.trans hrest

theorem passes_frame {f : Frame} (hc : c.Paced D) (hgood : f.stop = true)
    (hidle : (run line (c.ticks sending) t).phase = .idle)
    (hreads : Reads (levelAt line) t (f.wave (16 * D))) :
    Passes line (c.ticks sending) t (t + f.length * (16 * D)) [f.byte] := by
  have hD := hc.pos
  have hlength : 160 * D ≤ f.length * (16 * D) := by
    have hten := Nat.mul_le_mul_right (16 * D) (@Frame.ten_le_length f)
    omega
  have hmiddle : ∀ m k, m ≤ 9 → IsTick (c.ticks sending) t (8 + 16 * m) k → levelAt line k = f.level m := by
    intro m k hm hk
    have hslot := hc.tick_slot hk
    have hinside : k - t < f.length * (16 * D) := by
      have hlt := (Nat.div_lt_iff_lt_mul (by omega)).mp (show (k - t) / (16 * D) < 10 by omega)
      omega
    have hlevel := hreads.wave hinside
    rwa [Nat.add_sub_cancel' (Nat.le_of_lt hk.after), hslot] at hlevel
  have hnotices : Notices line (c.ticks sending) t := by
    have hstart := hreads.wave (e := 0) (by omega)
    rw [Nat.zero_div] at hstart
    exact ⟨hidle, hstart⟩
  obtain ⟨k₈, hk₈⟩ := hc.exists_tick sending t 7
  obtain ⟨k₁₅₂, hk₁₅₂⟩ := hc.exists_tick sending t 151
  obtain ⟨k, hk⟩ := hc.exists_tick sending t 158
  obtain ⟨hafter, hbefore⟩ := hc.tick_window hk
  have hconfirmed : Confirmed line (c.ticks sending) t := ⟨k₈, hk₈, hmiddle 0 k₈ (Nat.zero_le _) hk₈⟩
  have hframe : Passes line (c.ticks sending) t (k + 1) [f.byte] :=
    hnotices.passes_frame (fun m k _ hm hk => hmiddle m k hm hk) hgood hconfirmed hk₁₅₂ hk
  -- What is left are the end of the stop bit, and the gap.
  have hhigh : ∀ m, k + 1 ≤ m → m < t + f.length * (16 * D) → levelAt line m = true := by
    intro m hm hlt
    have hlevel := hreads.wave (e := m - t) (by omega)
    have hslot : 9 ≤ (m - t) / (16 * D) := (Nat.le_div_iff_mul_le (by omega)).mpr (by omega)
    rwa [Nat.add_sub_cancel' (by omega), Frame.level_high hgood hslot] at hlevel
  exact hframe.trans (passes_high hframe.idle (by omega) hhigh)

/-- A receiver that is idle before a stretch is idle after it. -/
theorem Stretch.passes (hc : c.Paced D) (s : Stretch) (hshort : s.Short D)
    (hidle : (run line (c.ticks sending) t).phase = .idle) (hreads : Reads (levelAt line) t (s.levels D)) :
    Passes line (c.ticks sending) t (t + (s.levels D).length) s.bytes := by
  cases s with
  | idle high =>
    rw [Stretch.levels, List.length_replicate]
    exact passes_high hidle (Nat.le_add_right _ _) hreads.replicate
  | glitch low high =>
    rw [Stretch.levels, List.length_append, List.length_replicate, List.length_replicate]
    exact passes_glitch hc hshort hidle hreads
  | frame byte =>
    rw [Stretch.levels, Frame.length_wave]
    exact passes_frame hc rfl hidle hreads

theorem passes_stretches (hc : c.Paced D) (hshort : ∀ s ∈ stretches, s.Short D)
    (hidle : (run line (c.ticks sending) t).phase = .idle)
    (hreads : Reads (levelAt line) t (stretches.flatMap (Stretch.levels D))) :
    Passes line (c.ticks sending) t (t + (stretches.flatMap (Stretch.levels D)).length)
      (stretches.flatMap Stretch.bytes) := by
  induction stretches generalizing t with
  | nil => exact ⟨(List.append_nil _).symm, hidle⟩
  | cons s stretches ih =>
    obtain ⟨hs, hrest⟩ := List.forall_mem_cons.mp hshort
    obtain ⟨hfirst, hlater⟩ := hreads.append
    have hpass := s.passes hc hs hidle hfirst
    rw [List.flatMap_cons, List.length_append, ← Nat.add_assoc]
    exact hpass.trans (ih hrest hpass.idle hlater)

/-- The line of some stretches, high after them. -/
def lineOf (D : Nat) (stretches : List Stretch) (n : Nat) : Bool :=
  (stretches.flatMap (Stretch.levels D)).getD n true

/-- What the receiver makes of some stretches in `n` steps. -/
structure Recovered (D : Nat) (stretches : List Stretch) (ticks : Nat → Bool) (n : Nat) : Prop where
  in_order : flagged (lineOf D stretches) ticks n <+: stretches.flatMap Stretch.bytes
  complete : (stretches.flatMap (Stretch.levels D)).length + 2 ≤ n →
    (run (lineOf D stretches) ticks n).busy = false ∧
      flagged (lineOf D stretches) ticks n = stretches.flatMap Stretch.bytes
  errors : ∀ k, k ≤ n → (run (lineOf D stretches) ticks k).frameError = false

/-- The line is high when its stretches are over. -/
theorem passes_line (hc : c.Paced D) (hshort : ∀ s ∈ stretches, s.Short D) (sending : Nat → Bool)
    (hn : (stretches.flatMap (Stretch.levels D)).length + 2 ≤ n) :
    Passes (lineOf D stretches) (c.ticks sending) 0 n (stretches.flatMap Stretch.bytes) := by
  have hall : ∀ s ∈ Stretch.idle 2 :: stretches, s.Short D := List.forall_mem_cons.mpr ⟨trivial, hshort⟩
  have hpass : Passes (lineOf D stretches) (c.ticks sending) 0 _ _ :=
    passes_stretches hc hall rfl (reads_levelAt _)
  rw [Nat.zero_add] at hpass
  have hover : ∀ k, (stretches.flatMap (Stretch.levels D)).length + 2 ≤ k → k < n →
      levelAt (lineOf D stretches) k = true := by
    intro k hk _
    obtain ⟨k, rfl⟩ : ∃ i, k = i + 2 := ⟨k - 2, by omega⟩
    show (stretches.flatMap (Stretch.levels D)).getD k true = true
    rw [List.getD_eq_getElem?_getD, List.getElem?_eq_none (by omega)]
    rfl
  have hrest := passes_high hpass.idle hn hover
  rw [← List.append_nil (stretches.flatMap Stretch.bytes)]
  exact hpass.trans hrest

/-- At every divisor, wherever the oversample counter stands, and whatever the bit counter does. -/
theorem recovered_of_stretches {count : Nat} {ticked : Bool} (hbits : 16 * D < 2 ^ 32) (hcount : count < D)
    (hticked : ticked = true → count = 0) (hshort : ∀ s ∈ stretches, s.Short D)
    (sending : Nat → Bool) (n : Nat) :
    Recovered D stretches ((BaudClock.standing D count ticked).ticks sending) n := by
  have hc : (BaudClock.standing D count ticked).Paced D := BaudClock.paced_standing hbits hcount hticked
  have hend := passes_line hc hshort sending (Nat.le_max_right n _)
  refine ⟨hend.flagged_before (Nat.le_max_left n _), fun hn => ?_, fun k hk => ?_⟩
  · have hpass := passes_line hc hshort sending hn
    exact ⟨Bool.eq_false_iff.mpr fun hbusy => (run_coherent n).busy.mp hbusy hpass.idle, hpass.flagged⟩
  · exact hend.frameError k (Nat.le_trans hk (Nat.le_max_left n _))

/-- At two steps to a tick: a spike as long as it may be, right before a frame, and another right
    after two frames. -/
theorem recovered_of_stretches_mixed :
    let stretches : List Stretch :=
      [.idle 3, .glitch 14 17, .frame 113, .frame 0, .glitch 1 20, .idle 5, .glitch 9 17, .frame 255]
    let ticks := (BaudClock.standing 2 1 false).ticks fun _ => true
    (16 * 2 < 2 ^ 32 ∧ 1 < 2 ∧ (false = true → 1 = 0) ∧ ∀ s ∈ stretches, s.Short 2) ∧
      Recovered 2 stretches ticks 1048 ∧ flagged (lineOf 2 stretches) ticks 1048 = [113, 0, 255] := by
  intro stretches ticks
  have hshort : ∀ s ∈ stretches, s.Short 2 := by simp [stretches, Stretch.Short]
  have hrates : 16 * 2 < 2 ^ 32 ∧ 1 < 2 ∧ (false = true → 1 = 0) := by decide
  obtain ⟨hbits, hcount, hticked⟩ := hrates
  have hrecovered : Recovered 2 stretches ticks 1048 :=
    recovered_of_stretches hbits hcount hticked hshort (fun _ => true) 1048
  have hlength : (stretches.flatMap (Stretch.levels 2)).length + 2 ≤ 1048 := by decide +kernel
  exact ⟨⟨hbits, hcount, hticked, hshort⟩, hrecovered, (hrecovered.complete hlength).2⟩

end

end Receiver

end BrainfuckBoard
