import BrainfuckBoard.Proofs.Serial.Spacing
import BrainfuckBoard.Proofs.Serial.Ticks

/- The receiver on any line, with ticks in any pattern. What it takes out of the line is a frame,
   whatever the levels are: the levels at the ticks 24, 40, up to 136 after the fall are its data
   bits, and the one at tick 152 is its stop bit. `Within` says that the receiver is in such a
   frame; a step keeps it or leads out of it (`Within.next`), at the eighth tick if the line is
   high again there, and else at tick 159. So all that the receiver flags is known from the line
   and the ticks (`sampling`). -/
namespace BrainfuckBoard.Receiver

/-- The receiver after `n` steps, from a reset on. -/
def run (line ticks : Nat → Bool) : Nat → Receiver
  | 0 => {}
  | n + 1 => (run line ticks n).clock (line n) (ticks n)

/-- The level that is looked at in a step: the line as it was two steps before. -/
def levelAt (line : Nat → Bool) : Nat → Bool
  | 0 | 1 => true
  | n + 2 => line n

/-- Something is shown in this state. -/
def Flags (r : Receiver) : Prop := r.valid = true ∨ r.frameError = true

/-- In step `t` the level is low, and the receiver is not in a frame. -/
structure Notices (line ticks : Nat → Bool) (t : Nat) : Prop where
  idle : (run line ticks t).phase = .idle
  low : levelAt line t = false

/-- What began in step `t` was no glitch. -/
def Confirmed (line ticks : Nat → Bool) (t : Nat) : Prop :=
  ∃ k, IsTick ticks t 8 k ∧ levelAt line k = false

/-- The levels at the middle of each bit are those of the frame. -/
def Samples (line ticks : Nat → Bool) (t : Nat) (f : Frame) : Prop :=
  ∀ m k, 1 ≤ m → m ≤ 9 → IsTick ticks t (8 + 16 * m) k → levelAt line k = f.level m

/-- The receiver is in the frame that began in step `t`. -/
structure Within (line ticks : Nat → Bool) (t : Nat) (f : Frame) (n : Nat) : Prop where
  notices : Notices line ticks t
  after : t < n
  counts : (run line ticks n).phase.ticks = ticksBetween ticks t n
  hears : (run line ticks n).phase.Hears f
  confirmed : 8 ≤ ticksBetween ticks t n → Confirmed line ticks t

/-- The receiver leaves in step `k` what began in step `t`. -/
inductive Ends (line ticks : Nat → Bool) (t k : Nat) : Prop
  | glitch (hk : IsTick ticks t 8 k) (hhigh : levelAt line k = true) : Ends line ticks t k
  | frame (h : Confirmed line ticks t) (hk : IsTick ticks t 159 k) : Ends line ticks t k

section
variable {line ticks : Nat → Bool} {t k m n : Nat} {f : Frame}

/-! ## The levels -/

theorem run_registers : ∀ n, (run line ticks n).second = levelAt line n ∧
    (run line ticks n).first = levelAt line (n + 1)
  | 0 => ⟨rfl, rfl⟩
  | n + 1 => by
    obtain ⟨-, hfirst⟩ := run_registers n
    obtain ⟨hline, hsecond⟩ : (run line ticks (n + 1)).first = line n ∧
        (run line ticks (n + 1)).second = (run line ticks n).first := clock_registers
    exact ⟨hsecond.trans hfirst, hline⟩

theorem run_coherent : ∀ n, (run line ticks n).Coherent
  | 0 => coherent_initial
  | n + 1 => (run_coherent n).clock

/-- Any levels make a byte and a stop bit. -/
theorem exists_samples (line ticks : Nat → Bool) (t : Nat) : ∃ f, Samples line ticks t f := by
  have hframe : ∀ bits : Nat → Bool, ∃ f : Frame, ∀ m, 1 ≤ m → m ≤ 9 → f.level m = bits m := by
    intro bits
    let data : Fin 8 → Bool := fun i => bits (i + 1)
    refine ⟨{ byte := UInt8.ofNat (Nat.ofBits data), stop := bits 9, gap := 0 }, fun m h₁ h₉ => ?_⟩
    obtain ⟨i, rfl⟩ : ∃ i, m = i + 1 := ⟨m - 1, by omega⟩
    by_cases hi : i < 8
    · have hsmall : (UInt8.ofNat (Nat.ofBits data)).toNat = Nat.ofBits data := by
        rw [UInt8.toNat_ofNat', Nat.mod_eq_of_lt (Nat.ofBits_lt_two_pow data)]
      rw [Frame.level_data hi, byteBit, hsmall, Nat.testBit_ofBits_lt data i hi]
    · obtain rfl : i = 8 := by omega
      exact Frame.level_stop
  classical
  obtain ⟨f, hf⟩ := hframe fun m => decide (∃ k, IsTick ticks t (8 + 16 * m) k ∧ levelAt line k = true)
  refine ⟨f, fun m k h₁ h₉ hk => ?_⟩
  rw [hf m h₁ h₉]
  cases hlevel : levelAt line k with
  | true => exact (decide_eq_true ⟨k, hk, hlevel⟩).symm
  | false =>
    refine (decide_eq_false ?_).symm
    rintro ⟨k', hk', hhigh⟩
    rw [hk'.unique hk, hlevel] at hhigh
    exact Bool.false_ne_true hhigh

/-! ## One step -/

theorem Notices.within (h : Notices line ticks t) : Within line ticks t f (t + 1) := by
  have hrun : run line ticks (t + 1) =
      { (run line ticks t).shifted (line t) with phase := .start 0, busy := true } :=
    clock_idle_low h.idle ((run_registers t).1.trans h.low)
  refine ⟨h, Nat.lt_succ_self t, ?_, ?_, fun hle => ?_⟩
  · rw [hrun, ticksBetween_start]
    rfl
  · rw [hrun]
    exact Nat.zero_le 7
  · rw [ticksBetween_start] at hle
    exact absurd hle (by decide)

theorem Phase.Hears.start_of_ticks {phase : Phase} (h : phase.Hears f) (hticks : phase.ticks = 7) :
    phase = .start 7 := by
  cases phase with
  | idle => exact h.elim
  | start n => exact congrArg _ hticks
  | bits | stop | rest =>
    simp only [Phase.ticks] at hticks
    omega

theorem Phase.Hears.stop_of_ticks {phase : Phase} (h : phase.Hears f) (hticks : phase.ticks = 151) :
    phase = .stop 15 f.byte := by
  cases phase with
  | idle => exact h.elim
  | stop n byte =>
    obtain ⟨-, rfl⟩ := h
    simp only [Phase.ticks] at hticks
    rw [show n = 15 by omega]
  | start | bits | rest =>
    simp only [Phase.Hears, Phase.ticks] at h hticks
    omega

theorem Within.next (h : Within line ticks t f n) (hf : Samples line ticks t f) :
    Within line ticks t f (n + 1) ∨ (Ends line ticks t n ∧ (run line ticks (n + 1)).phase = .idle) := by
  obtain ⟨hlevel, -⟩ := @run_registers line ticks n
  by_cases hglitch : IsTick ticks t 8 n ∧ levelAt line n = true
  · obtain ⟨heighth, hhigh⟩ := hglitch
    have hcount := heighth.counted
    have hstart := h.hears.start_of_ticks (by rw [h.counts]; omega)
    have hrun : run line ticks (n + 1) = ((run line ticks n).shifted (line n)).tick (run line ticks n).second :=
      (clock_busy h.hears.ne_idle).trans (if_pos heighth.ticked)
    refine .inr ⟨.glitch heighth hhigh, ?_⟩
    rw [hrun, hlevel, hhigh]
    simp [tick, shifted, hstart, startTicks]
  · -- Whatever the level is, the frame has it.
    have hlooks : ticks n = true → ∀ m, (run line ticks n).phase.ticks + 1 = 8 + 16 * m →
        (run line ticks n).second = f.level m := by
      intro htick m hm
      have hle := h.hears.ticks_le
      rw [h.counts] at hm hle
      have htickAt : IsTick ticks t (8 + 16 * m) n := ⟨h.after, htick, hm⟩
      rw [hlevel]
      cases m with
      | zero => exact Bool.eq_false_iff.mpr fun hhigh => hglitch ⟨htickAt, hhigh⟩
      | succ m => exact hf (m + 1) n (Nat.succ_pos m) (by omega) htickAt
    rcases @Phase.Hears.clock (run line ticks n) f (line n) (ticks n) h.hears hlooks with
      ⟨hnext, hcount, -⟩ | ⟨htick, hlast, hidle, -⟩
    · refine .inl ⟨h.notices, Nat.lt_succ_of_lt h.after, ?_, hnext, fun hle => ?_⟩
      · rw [ticksBetween_succ h.after, ← h.counts]
        exact hcount
      · obtain ⟨k, hk, heighth⟩ := exists_isTick (by decide) (Nat.lt_succ_of_lt h.after) hle
        rcases Nat.eq_or_lt_of_le (Nat.le_of_lt_succ hk) with rfl | hlt
        · exact ⟨k, heighth, Bool.eq_false_iff.mpr fun hhigh => hglitch ⟨heighth, hhigh⟩⟩
        · exact h.confirmed (heighth.le_of_lt hlt)
    · have hcount := h.counts
      rw [hlast] at hcount
      have hend : IsTick ticks t 159 n := ⟨h.after, htick, by rw [← hcount]; rfl⟩
      exact .inr ⟨.frame (h.confirmed (by rw [← hcount]; decide)) hend, hidle⟩

/-! ## A whole frame -/

theorem Notices.stays (h : Notices line ticks t) (hf : Samples line ticks t f) (ht : t < n)
    (hends : ∀ k, k < n → ¬ Ends line ticks t k) : Within line ticks t f n := by
  induction n with
  | zero => exact absurd ht (Nat.not_lt_zero t)
  | succ n ih =>
    rcases Nat.eq_or_lt_of_le (Nat.le_of_lt_succ ht) with rfl | hlt
    · exact h.within
    · have hn := ih hlt fun k hk => hends k (Nat.lt_succ_of_lt hk)
      rcases hn.next hf with hnext | ⟨hend, -⟩
      · exact hnext
      · exact absurd hend (hends n (Nat.lt_succ_self n))

theorem not_ends_early (h : ticksBetween ticks t n < 8) (hk : k < n) : ¬ Ends line ticks t k := by
  rintro (⟨hk', -⟩ | ⟨-, hk'⟩)
  · exact absurd (hk'.le_of_lt hk) (Nat.not_le_of_lt h)
  · exact absurd (hk'.le_of_lt hk) (by omega)

theorem Confirmed.not_ends (h : Confirmed line ticks t) (hn : ticksBetween ticks t n < 159) (hk : k < n) :
    ¬ Ends line ticks t k := by
  rintro (⟨hk', hhigh⟩ | ⟨-, hk'⟩)
  · obtain ⟨k', hk₈, hlow⟩ := h
    rw [hk'.unique hk₈, hlow] at hhigh
    exact Bool.false_ne_true hhigh
  · exact absurd (hk'.le_of_lt hk) (Nat.not_le_of_lt hn)

theorem Confirmed.within (h : Confirmed line ticks t) (hnotices : Notices line ticks t)
    (hf : Samples line ticks t f) (ht : t < n) (hn : ticksBetween ticks t n < 159) :
    Within line ticks t f n :=
  hnotices.stays hf ht fun _ hk => h.not_ends hn hk

theorem Within.busy (h : Within line ticks t f n) : (run line ticks n).busy = true :=
  (run_coherent n).busy.mpr h.hears.ne_idle

theorem Within.leaves (h : Within line ticks t f k) (hf : Samples line ticks t f)
    (hend : Ends line ticks t k) : (run line ticks (k + 1)).phase = .idle := by
  rcases h.next hf with hnext | ⟨-, hidle⟩
  · cases hend with
    | glitch hk hhigh =>
      obtain ⟨k', hk₈, hlow⟩ := hnext.confirmed (Nat.le_of_eq hk.between_succ.symm)
      rw [hk.unique hk₈, hlow] at hhigh
      exact absurd hhigh Bool.false_ne_true
    | frame _ hk =>
      have hle := hnext.hears.ticks_le
      rw [hnext.counts, hk.between_succ] at hle
      exact absurd hle (by decide)
  · exact hidle

/-- At tick 152 the receiver looks at the stop bit. -/
theorem Within.stop (h : Within line ticks t f k) (hk : IsTick ticks t 152 k) :
    run line ticks (k + 1) = if levelAt line k
      then { (run line ticks k).shifted (line k) with phase := .rest 0, data := f.byte, valid := true }
      else { (run line ticks k).shifted (line k) with phase := .rest 0, frameError := true } := by
  have hcount := hk.counted
  have hstop := h.hears.stop_of_ticks (by rw [h.counts]; omega)
  have hrun : run line ticks (k + 1) = if ticks k
      then ((run line ticks k).shifted (line k)).tick (run line ticks k).second
      else (run line ticks k).shifted (line k) := clock_busy h.hears.ne_idle
  rw [hrun, hk.ticked, if_pos rfl, (run_registers k).1]
  simp [tick, shifted, hstop, ticksPerBit]

theorem stop_of_flags (h : (run line ticks (n + 1)).Flags) :
    ticks n = true ∧ ∃ byte, (run line ticks n).phase = .stop 15 byte := by
  have hshown : (run line ticks (n + 1)).shown ≠ [] := by
    rcases h with h | h <;> simp [shown, byte?, h]
  obtain ⟨htick, byte, hstop, -⟩ := clock_shown hshown
  exact ⟨htick, byte, hstop⟩

theorem Within.tick_of_flags (h : Within line ticks t f n) (hflags : (run line ticks (n + 1)).Flags) :
    IsTick ticks t 152 n := by
  obtain ⟨htick, byte, hstop⟩ := stop_of_flags hflags
  have hcount := h.counts
  rw [hstop] at hcount
  exact ⟨h.after, htick, congrArg (· + 1) hcount.symm⟩

/-! ## A whole run -/

theorem idle_or_within : ∀ n, (run line ticks n).phase = .idle ∨
    ∃ t f, Samples line ticks t f ∧ Within line ticks t f n
  | 0 => .inl rfl
  | n + 1 => by
    rcases idle_or_within n with hidle | ⟨t, f, hf, hn⟩
    · cases hlevel : levelAt line n with
      | true =>
        left
        have hrun : run line ticks (n + 1) = (run line ticks n).shifted (line n) :=
          clock_idle_high hidle ((run_registers n).1.trans hlevel)
        rw [hrun]
        exact hidle
      | false =>
        obtain ⟨f, hf⟩ := exists_samples line ticks n
        exact .inr ⟨n, f, hf, Notices.within ⟨hidle, hlevel⟩⟩
    · rcases hn.next hf with hnext | ⟨-, hidle⟩
      · exact .inr ⟨t, f, hf, hnext⟩
      · exact .inl hidle

/-- All that is shown is shown at tick 152 of a frame. -/
theorem exists_of_flags (h : (run line ticks (n + 1)).Flags) :
    ∃ t, Notices line ticks t ∧ Confirmed line ticks t ∧ IsTick ticks t 152 n := by
  rcases idle_or_within n with hidle | ⟨t, f, -, hn⟩
  · obtain ⟨-, byte, hstop⟩ := stop_of_flags h
    rw [hidle] at hstop
    cases hstop
  · have hk := hn.tick_of_flags h
    have hcount := hk.counted
    exact ⟨t, hn.notices, hn.confirmed (by omega), hk⟩

/-- A new frame begins when the one before it is over. -/
theorem Notices.ended (h : Notices line ticks t) (hconfirmed : Confirmed line ticks t)
    (hnext : Notices line ticks m) (hlt : t < m) : ∃ k, k < m ∧ IsTick ticks t 159 k := by
  obtain ⟨f, hf⟩ := exists_samples line ticks t
  rcases Nat.lt_or_ge (ticksBetween ticks t m) 159 with hn | hn
  · exact absurd hnext.idle (hconfirmed.within h hf hlt hn).hears.ne_idle
  · exact exists_isTick (by decide) hlt hn

theorem flags_apart (h : (run line ticks m).Flags) (h' : (run line ticks n).Flags) (hlt : m < n) :
    m + 160 ≤ n := by
  rcases m with _ | m
  · rcases h with h | h <;> exact absurd h Bool.false_ne_true
  obtain ⟨n, rfl⟩ : ∃ k, n = k + 1 := ⟨n - 1, by omega⟩
  obtain ⟨t, hnotices, hconfirmed, hm⟩ := exists_of_flags h
  obtain ⟨u, hnotices', hconfirmed', hn⟩ := exists_of_flags h'
  rcases Nat.lt_trichotomy t u with hbefore | rfl | hafter
  · obtain ⟨k, hk, hend⟩ := hnotices.ended hconfirmed hnotices' hbefore
    have hrest := hm.apart hend (by decide)
    have hfar := hn.far
    omega
  · have hsame := hm.unique hn
    omega
  · obtain ⟨k, hk, hend⟩ := hnotices'.ended hconfirmed' hnotices hafter
    have hrest := hn.apart hend (by decide)
    have hbegun := hm.after
    omega

/-! ## The definition -/

/-- What follows a fall of the line that is noticed in step `t`. -/
structure Follows (line ticks : Nat → Bool) (t : Nat) : Prop where
  start : ∀ n, t < n → ticksBetween ticks t n < 8 → (run line ticks n).busy = true
  glitch : ∀ k, IsTick ticks t 8 k → levelAt line k = true →
    (run line ticks (k + 1)).busy = false ∧ ¬ (run line ticks (k + 1)).Flags
  frame : Confirmed line ticks t → ∀ n, t < n → ticksBetween ticks t n < 159 →
    (run line ticks n).busy = true
  rest : Confirmed line ticks t → ∀ k, IsTick ticks t 159 k → (run line ticks (k + 1)).busy = false
  byte : Confirmed line ticks t → ∀ k, IsTick ticks t 152 k → levelAt line k = true →
    (run line ticks (k + 1)).valid = true ∧ (run line ticks (k + 1)).frameError = false ∧
      ∀ i j, i < 8 → IsTick ticks t (24 + 16 * i) j →
        byteBit (run line ticks (k + 1)).data i = levelAt line j
  error : Confirmed line ticks t → ∀ k, IsTick ticks t 152 k → levelAt line k = false →
    (run line ticks (k + 1)).frameError = true ∧ (run line ticks (k + 1)).valid = false ∧
      (run line ticks (k + 1)).data = (run line ticks k).data

/-- The receiver is what it samples: from its first state on, all that can be seen of it follows
    from the line and the ticks. -/
structure Sampling (line ticks : Nat → Bool) : Prop where
  busy_iff : ∀ n, (run line ticks n).busy = true ↔ (run line ticks n).phase ≠ .idle
  quiet : ∀ n, (run line ticks n).phase = .idle → levelAt line n = true →
    (run line ticks (n + 1)).phase = .idle
  follows : ∀ t, Notices line ticks t → Follows line ticks t
  flagged : ∀ n, (run line ticks (n + 1)).Flags →
    ∃ t, Notices line ticks t ∧ Confirmed line ticks t ∧ IsTick ticks t 152 n
  data : ∀ n, (run line ticks (n + 1)).data ≠ (run line ticks n).data →
    (run line ticks (n + 1)).valid = true
  apart : ∀ m n, m < n → (run line ticks m).Flags → (run line ticks n).Flags → m + 160 ≤ n

theorem Notices.follows (h : Notices line ticks t) : Follows line ticks t := by
  obtain ⟨f, hf⟩ := exists_samples line ticks t
  have hrests : ∀ {n}, (run line ticks n).phase = .idle → (run line ticks n).busy = false :=
    fun hidle => Bool.eq_false_iff.mpr fun hbusy => (run_coherent _).busy.mp hbusy hidle
  have hstop : Confirmed line ticks t → ∀ {k}, IsTick ticks t 152 k → Within line ticks t f k :=
    fun hconfirmed _ hk =>
      hconfirmed.within h hf hk.after (Nat.lt_trans (hk.lt_of_le (Nat.le_refl _)) (by decide))
  refine ⟨?_, ?_, ?_, ?_, ?_, ?_⟩
  · intro n ht hn
    exact (h.stays hf ht fun _ hk => not_ends_early hn hk).busy
  · intro k hk hhigh
    have hn := hk.lt_of_le (Nat.le_refl k)
    have hwithin := h.stays hf hk.after fun _ hlt => not_ends_early hn hlt
    refine ⟨hrests (hwithin.leaves hf (.glitch hk hhigh)), fun hflags => ?_⟩
    exact absurd (hk.counted.symm.trans (hwithin.tick_of_flags hflags).counted) (by decide)
  · intro hconfirmed n ht hn
    exact (hconfirmed.within h hf ht hn).busy
  · intro hconfirmed k hk
    have hwithin := hconfirmed.within h hf hk.after (hk.lt_of_le (Nat.le_refl k))
    exact hrests (hwithin.leaves hf (.frame hconfirmed hk))
  · intro hconfirmed k hk hhigh
    have hrun := (hstop hconfirmed hk).stop hk
    rw [if_pos hhigh] at hrun
    rw [hrun]
    refine ⟨rfl, rfl, fun i j hi hj => ?_⟩
    have hmiddle : IsTick ticks t (8 + 16 * (i + 1)) j := by
      rwa [show 8 + 16 * (i + 1) = 24 + 16 * i by omega]
    rw [hf (i + 1) j (Nat.succ_pos i) (by omega) hmiddle, Frame.level_data hi]
  · intro hconfirmed k hk hlow
    have hrun := (hstop hconfirmed hk).stop hk
    rw [if_neg (ne_true_of_eq_false hlow)] at hrun
    rw [hrun]
    exact ⟨rfl, rfl, rfl⟩

/-- The line and the ticks settle what the receiver shows, on any line and with any ticks. -/
theorem sampling_of_run (line ticks : Nat → Bool) : Sampling line ticks where
  busy_iff n := (run_coherent n).busy
  quiet n hidle hlevel := by
    have hrun : run line ticks (n + 1) = (run line ticks n).shifted (line n) :=
      clock_idle_high hidle ((run_registers n).1.trans hlevel)
    rw [hrun]
    exact hidle
  follows _ h := h.follows
  flagged _ h := exists_of_flags h
  data _ hchange := eq_true_of_ne_false fun hvalid => hchange (clock_data hvalid)
  apart _ _ hlt h h' := flags_apart h h' hlt

end

end BrainfuckBoard.Receiver
