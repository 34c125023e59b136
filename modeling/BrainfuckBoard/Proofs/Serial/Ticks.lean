import Mathlib.Data.Nat.Count

/- Tick steps counted from a step on, for ticks that may come in any pattern, or stop coming.
   Step `k` comes in between the `j`-th tick step after `t` and the next one, the first of them
   included, if `ticksBetween ticks t (k + 1) = j`. Where the steps that tick are those that `D`
   divides, counted from `t`, the `j`-th is step `t + j * D` (`isTick_of_dvd`). -/
namespace BrainfuckBoard

/-- The tick steps between the steps `t` and `n`, both of them excluded. -/
def ticksBetween (ticks : Nat → Bool) (t n : Nat) : Nat :=
  Nat.count (fun i => t < i ∧ ticks i = true) n

/-- Step `k` is the `j`-th tick step after step `t`. -/
structure IsTick (ticks : Nat → Bool) (t j k : Nat) : Prop where
  after : t < k
  ticked : ticks k = true
  counted : ticksBetween ticks t k + 1 = j

section
variable {ticks : Nat → Bool} {t i j k m n : Nat}

theorem ticksBetween_start : ticksBetween ticks t (t + 1) = 0 := by
  rw [ticksBetween, Nat.count_iff_forall_not]
  rintro i hi ⟨hlt, -⟩
  omega

theorem ticksBetween_succ (h : t < n) :
    ticksBetween ticks t (n + 1) = ticksBetween ticks t n + if ticks n then 1 else 0 := by
  simp only [ticksBetween, Nat.count_succ, h, true_and]

theorem ticksBetween_mono (h : m ≤ n) : ticksBetween ticks t m ≤ ticksBetween ticks t n :=
  Nat.count_monotone _ h

/-- There is one tick in a step at most. -/
theorem ticksBetween_add_le (n : Nat) : ∀ d, ticksBetween ticks t (n + d) ≤ ticksBetween ticks t n + d
  | 0 => Nat.le_refl _
  | d + 1 => by
    have ih := ticksBetween_add_le n d
    rw [← Nat.add_assoc n d 1, ticksBetween, Nat.count_succ, ← ticksBetween]
    split <;> omega

theorem IsTick.between_succ (h : IsTick ticks t j k) : ticksBetween ticks t (k + 1) = j := by
  rw [ticksBetween_succ h.after, h.ticked, if_pos rfl, h.counted]

theorem IsTick.le_of_lt (h : IsTick ticks t j k) (hk : k < n) : j ≤ ticksBetween ticks t n := by
  rw [← h.between_succ]
  exact ticksBetween_mono hk

theorem IsTick.lt_of_le (h : IsTick ticks t j k) (hn : n ≤ k) : ticksBetween ticks t n < j := by
  rw [← h.counted]
  exact Nat.lt_succ_of_le (ticksBetween_mono hn)

theorem exists_isTick (hj : 0 < j) (ht : t < n) (h : j ≤ ticksBetween ticks t n) :
    ∃ k, k < n ∧ IsTick ticks t j k := by
  induction n, ht using Nat.le_induction with
  | base =>
    rw [Nat.succ_eq_add_one, ticksBetween_start] at h
    omega
  | succ n ht ih =>
    rcases Nat.lt_or_ge (ticksBetween ticks t n) j with hlt | hge
    · rw [ticksBetween_succ ht] at h
      cases htick : ticks n with
      | false =>
        rw [htick, if_neg Bool.false_ne_true] at h
        omega
      | true =>
        rw [htick, if_pos rfl] at h
        exact ⟨n, Nat.lt_succ_self n, ht, htick, by omega⟩
    · obtain ⟨k, hk, htickAt⟩ := ih hge
      exact ⟨k, Nat.lt_succ_of_lt hk, htickAt⟩

/-- Later ticks are at least as many steps away. -/
theorem IsTick.apart (h : IsTick ticks t i k) (h' : IsTick ticks t j m) (hij : i ≤ j) : k + (j - i) ≤ m := by
  have hi := h.between_succ
  have hj := h'.between_succ
  rcases Nat.lt_or_ge m k with hlt | hge
  · have hle := h'.le_of_lt hlt
    have hlt' := h.lt_of_le (Nat.le_refl k)
    omega
  · have hle := @ticksBetween_add_le ticks t (k + 1) (m - k)
    rw [show k + 1 + (m - k) = m + 1 by omega] at hle
    omega

theorem IsTick.unique (h : IsTick ticks t j k) (h' : IsTick ticks t j m) : k = m := by
  have hkm := h.apart h' (Nat.le_refl j)
  have hmk := h'.apart h (Nat.le_refl j)
  omega

theorem IsTick.far (h : IsTick ticks t j k) : t + j ≤ k := by
  have hle := @ticksBetween_add_le ticks t (t + 1) (k - t)
  have hafter := h.after
  rw [show t + 1 + (k - t) = k + 1 by omega, h.between_succ, ticksBetween_start] at hle
  omega

/-! ## Ticks in equal periods -/

/-- `D` divides the steps after step `t` that have ticked, up to `length` steps. -/
theorem ticksBetween_of_dvd {D : Nat} : ∀ {length : Nat},
    (∀ i, 0 < i → i ≤ length → (ticks (t + i) = true ↔ D ∣ i)) →
      ticksBetween ticks t (t + length + 1) = length / D
  | 0, _ => by rw [Nat.add_zero, ticksBetween_start, Nat.zero_div]
  | length + 1, h => by
    have ih := ticksBetween_of_dvd fun i hi hlt => h i hi (Nat.le_succ_of_le hlt)
    have hlast := h (length + 1) (Nat.succ_pos length) (Nat.le_refl _)
    rw [ticksBetween_succ (by omega), ← Nat.add_assoc, ih, Nat.succ_div]
    rw [← Nat.add_assoc] at hlast
    simp only [hlast]

theorem isTick_of_dvd {D : Nat} (hD : 0 < D) (hj : 0 < j)
    (h : ∀ i, 0 < i → i ≤ j * D → (ticks (t + i) = true ↔ D ∣ i)) : IsTick ticks t j (t + j * D) := by
  have hpos : 0 < j * D := Nat.mul_pos hj hD
  have hticked : ticks (t + j * D) = true := (h _ hpos (Nat.le_refl _)).mpr (Nat.dvd_mul_left D j)
  have hcount := ticksBetween_of_dvd h
  rw [ticksBetween_succ (by omega), hticked, if_pos rfl, Nat.mul_div_cancel j hD] at hcount
  exact ⟨by omega, hticked, hcount⟩

end

end BrainfuckBoard
