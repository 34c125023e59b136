import BrainfuckBoard.Proofs.Serial.Reception

/- How long the receiver shows nothing. `Away` is a bound on the steps until it shows the
   next byte or error, whatever is sent: between frames the line has to fall first, and
   152 ticks go by from there. A step takes one off the bound (`Away.clock`). When a good
   frame with a gap after it has just been shown, the next one is 175 ticks away
   (`Listening.away_of_shown`). -/
namespace BrainfuckBoard

open List (replicate)

/-! ## What a step shows -/

namespace Receiver

section
variable {r : Receiver} {line ticked level : Bool}

theorem tick_shown (hv : r.valid = false) (he : r.frameError = false) :
    (r.tick level).shown = [] ∨ ∃ byte, r.phase = .stop 15 byte ∧ (r.tick level).phase = .rest 0 := by
  have hquiet : ∀ phase busy, ({ r with phase := phase, busy := busy } : Receiver).shown = [] :=
    fun phase busy => shown_eq_nil hv he
  cases hp : r.phase with
  | idle => simp [tick, hp, shown_eq_nil hv he]
  | start n =>
    left
    simp only [tick, hp]
    split
    · split <;> exact hquiet _ _
    · exact hquiet _ _
  | bits i n shift =>
    left
    simp only [tick, hp]
    split <;> exact hquiet _ _
  | stop n byte =>
    by_cases hn : n = 15
    · right
      refine ⟨byte, by rw [hn], ?_⟩
      simp only [tick, hp, hn, ticksPerBit, if_true]
      split <;> rfl
    · have htick : r.tick level = { r with phase := .stop (n + 1) byte } := by
        simp [tick, hp, hn, ticksPerBit]
      rw [htick]
      exact .inl (hquiet _ _)
  | rest n =>
    left
    simp only [tick, hp]
    split <;> exact hquiet _ _

/-- Something is shown at the end of a frame, when the stop bit is looked at. -/
theorem clock_shown (h : (r.clock line ticked).shown ≠ []) :
    ticked = true ∧ ∃ byte, r.phase = .stop 15 byte ∧ (r.clock line ticked).phase = .rest 0 := by
  by_cases hp : r.phase = .idle
  · cases hs : r.second with
    | false => exact absurd (by rw [clock_idle_low hp hs]; rfl) h
    | true => exact absurd (by rw [clock_idle_high hp hs]; rfl) h
  · rw [clock_busy hp] at h ⊢
    cases ticked with
    | false => exact absurd rfl h
    | true => exact ⟨rfl, ((r.shifted line).tick_shown rfl rfl).resolve_left h⟩

/-- The receiver is not in a frame, or has shown what it had to show of it. -/
def Phase.between : Phase → Bool
  | .idle | .rest _ => true
  | _ => false

/-- The rest of a stop bit leads to silence. -/
theorem tick_rest {n : Nat} (hp : r.phase = .rest n) : (r.tick level).phase.between = true := by
  simp only [tick, hp]
  split <;> rfl

end

end Receiver

/-! ## The distance to the next frame -/

/-- Nothing is shown in the next `k` steps. -/
def Away (D lag : Nat) (levels : List Bool) (k : Nat) (phase : Receiver.Phase) : Prop :=
  if phase.between then ∃ high, replicate high true <+: levels ∧ k ≤ high + 151 * D + 1
  else k + lag + phase.ticks * D ≤ 152 * D

namespace Away

section
variable {D lag k : Nat} {levels rest : List Bool} {phase : Receiver.Phase} {r : Receiver}
  {line ticked level : Bool}

theorem between_iff (hp : phase.between = true) :
    Away D lag levels k phase ↔ ∃ high, replicate high true <+: levels ∧ k ≤ high + 151 * D + 1 := by
  rw [Away, if_pos hp]

theorem frame_iff (hp : phase.between = false) :
    Away D lag levels k phase ↔ k + lag + phase.ticks * D ≤ 152 * D := by
  rw [Away, hp, if_neg Bool.false_ne_true]

/-- Outside of a frame, a whole frame comes first. -/
theorem of_le (hp : phase.between = true) (hk : k ≤ 151 * D + 1) : Away D lag levels k phase :=
  (between_iff hp).mpr ⟨0, List.nil_prefix, by omega⟩

theorem mono {j : Nat} (h : Away D lag levels k phase) (hj : j ≤ k) : Away D lag levels j phase := by
  cases hp : phase.between with
  | true =>
    obtain ⟨high, hhigh, hk⟩ := (between_iff hp).mp h
    exact (between_iff hp).mpr ⟨high, hhigh, by omega⟩
  | false =>
    rw [frame_iff hp] at h ⊢
    omega

/-- More levels at the end make no difference. -/
theorem append (h : Away D lag levels k phase) (pad : List Bool) : Away D lag (levels ++ pad) k phase := by
  cases hp : phase.between with
  | true =>
    obtain ⟨high, hhigh, hk⟩ := (between_iff hp).mp h
    exact (between_iff hp).mpr ⟨high, hhigh.trans (List.prefix_append _ _), hk⟩
  | false =>
    rw [frame_iff hp] at h ⊢
    exact h

theorem high_tail {high : Nat} (h : replicate high true <+: level :: rest) :
    (high = 0 ∨ level = true) ∧ replicate (high - 1) true <+: rest := by
  cases high with
  | zero => exact ⟨.inl rfl, List.nil_prefix⟩
  | succ n =>
    rw [List.replicate_succ, List.cons_prefix_cons] at h
    exact ⟨.inr h.1.symm, h.2⟩

/-- A step between two frames. -/
theorem clock_between {high lag' : Nat} (hp : r.phase.between = true)
    (hhigh : replicate high true <+: r.second :: rest) (hk : k + 1 ≤ high + 151 * D + 1) (hlag : lag' ≤ D) :
    Away D lag' rest k (r.clock line ticked).phase := by
  obtain ⟨hfirst, htail⟩ := high_tail hhigh
  have hbetween : ∀ phase : Receiver.Phase, phase.between = true → Away D lag' rest k phase :=
    fun phase hphase => (between_iff hphase).mpr ⟨high - 1, htail, by omega⟩
  cases hphase : r.phase with
  | idle =>
    cases hs : r.second with
    | true =>
      rw [Receiver.clock_idle_high hphase hs]
      exact hbetween r.phase hp
    | false =>
      -- The line has fallen.
      obtain rfl : high = 0 := hfirst.resolve_right (by rw [hs]; exact Bool.false_ne_true)
      rw [Receiver.clock_idle_low hphase hs, frame_iff rfl]
      simp only [Receiver.Phase.ticks]
      omega
  | rest n =>
    rw [Receiver.clock_busy (by simp [hphase])]
    cases ticked with
    | false => exact hbetween r.phase hp
    | true => exact hbetween _ (Receiver.tick_rest (r := r.shifted line) hphase)
  | _ =>
    rw [hphase] at hp
    exact absurd hp Bool.false_ne_true

/-- A step in a frame. -/
theorem clock_frame (hp : r.phase.between = false) (hk : k + 1 + lag + r.phase.ticks * D ≤ 152 * D)
    (ht : ticked = true ↔ lag = D) :
    Away D (if ticked then 1 else lag + 1) rest k (r.clock line ticked).phase := by
  have hbusy : r.phase ≠ .idle := by
    intro hidle
    rw [hidle] at hp
    exact absurd hp.symm Bool.false_ne_true
  cases ticked with
  | false =>
    rw [Receiver.clock_busy hbusy, if_neg Bool.false_ne_true, if_neg Bool.false_ne_true]
    have hnext : k + (lag + 1) + r.phase.ticks * D ≤ 152 * D := by omega
    exact (frame_iff hp).mpr hnext
  | true =>
    obtain rfl : lag = D := ht.mp rfl
    rw [if_pos rfl]
    cases hp' : (r.clock line true).phase.between with
    | true => exact of_le hp' (by omega)
    | false =>
      -- The receiver is still in the frame, and counts.
      have hticks : (r.clock line true).phase.ticks = r.phase.ticks + 1 := by
        apply Receiver.clock_ticks hbusy
        intro hidle
        rw [hidle] at hp'
        exact absurd hp'.symm Bool.false_ne_true
      rw [frame_iff hp', hticks, Nat.succ_mul]
      omega

/-- A step takes one off the bound. -/
theorem clock (h : Away D lag levels (k + 1) r.phase) (hw : levels = r.second :: rest) (hD : 0 < D)
    (hlag : lag ≤ D) (ht : ticked = true ↔ lag = D) :
    (r.clock line ticked).shown = [] ∧
      Away D (if ticked then 1 else lag + 1) rest k (r.clock line ticked).phase := by
  constructor
  · apply Classical.byContradiction
    intro hshown
    obtain ⟨hticked, byte, hstop, -⟩ := Receiver.clock_shown hshown
    have hlast := ht.mp hticked
    rw [hstop, frame_iff rfl] at h
    simp only [Receiver.Phase.ticks] at h
    omega
  · cases hp : r.phase.between with
    | true =>
      obtain ⟨high, hhigh, hk⟩ := (between_iff hp).mp h
      apply clock_between hp (hw ▸ hhigh) hk
      split
      · exact hD
      · next hne => exact Nat.lt_of_le_of_ne hlag fun heq => hne (ht.mpr heq)
    | false => exact clock_frame hp ((frame_iff hp).mp h) ht

end

end Away

namespace Listening

section
variable {D lag lag' : Nat} {phase : Receiver.Phase} {r : Receiver} {levels rest : List Bool}
  {due : List Frame} {line ticked : Bool}

theorem away_zero (h : Listening D lag phase levels due) (hlag : lag ≤ D) : Away D lag levels 0 phase := by
  cases hp : phase.between with
  | true => exact Away.of_le hp (Nat.zero_le _)
  | false =>
    have hticks : phase.ticks ≤ 151 := by
      cases h with
      | quiet => exact absurd hp.symm Bool.false_ne_true
      | hearing f e c high pending hhears =>
        cases phase with
        | idle => exact hhears.elim
        | rest n => exact absurd hp.symm Bool.false_ne_true
        | _ =>
          simp only [Receiver.Phase.Hears, Receiver.Phase.ticks] at hhears ⊢
          omega
      | mistaken n low high hn =>
        simp only [Receiver.Phase.ticks]
        omega
    have hle := Nat.mul_le_mul_right D hticks
    rw [Away.frame_iff hp]
    omega

/-- The next frame begins when the rest of the stop bit and the gap are over. -/
theorem away_of_shown (h : Listening D lag r.phase levels due) (hw : levels = r.second :: rest)
    (ht : ticked = true ↔ lag = D)
    (hspaced : ∀ f ∈ due, f.stop = true ∧ 1 ≤ f.gap) (hshown : (r.clock line ticked).shown ≠ []) :
    Away D lag' rest (175 * D) (r.clock line ticked).phase := by
  obtain ⟨hticked, byte, hstop, hrest⟩ := Receiver.clock_shown hshown
  obtain rfl := ht.mp hticked
  rw [hrest, Away.between_iff rfl]
  rw [hstop] at h
  cases h with
  | hearing f e c high pending hhears hclear hc he =>
    obtain ⟨hgood, hgap⟩ := hspaced f (List.mem_append_left _ (List.mem_singleton_self f))
    simp only [Receiver.Phase.ticks] at he
    have hlength : f.length * (16 * lag) = 160 * lag + f.gap * (16 * lag) := by
      rw [Frame.length, Nat.add_mul]
      omega
    have hgap' := Nat.mul_le_mul_right (16 * lag) hgap
    rw [Frame.drop_wave (by omega), List.cons_append, List.cons.injEq] at hw
    rw [← hw.2, Frame.drop_wave_stop (by omega) (by omega) (by omega), hgood,
      List.replicate_append_replicate]
    exact ⟨_, List.prefix_append _ _, by omega⟩

end

end Listening

end BrainfuckBoard
