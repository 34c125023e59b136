import BrainfuckBoard.Proofs.Serial.Ranges
import BrainfuckBoard.Proofs.Serial.Ticks

/- The transmitter with ticks in any pattern, and with bytes offered in any step. The slot of the
   frame that it is in is the number of ticks since the byte was taken (`Accepts.sends`), the tenth
   of them ends the frame, and the transmitter is then as it was at first until a byte is taken
   again (`Accepts.rests`). What is offered during a frame is not looked at (`run_congr`). -/
namespace BrainfuckBoard.Transmitter

/-- The transmitter after `n` steps, from a reset on. -/
def run (offers : Nat → Option UInt8) (ticks : Nat → Bool) : Nat → Transmitter
  | 0 => {}
  | n + 1 => (run offers ticks n).clock (offers n) (ticks n)

/-- A byte is offered in step `t`, and the transmitter is idle. -/
structure Accepts (offers : Nat → Option UInt8) (ticks : Nat → Bool) (t : Nat) (byte : UInt8) : Prop where
  idle : (run offers ticks t).phase = .idle
  offered : offers t = some byte

/-- No byte is accepted from step `m` on, before step `n`. -/
def Undisturbed (offers : Nat → Option UInt8) (ticks : Nat → Bool) (m n : Nat) : Prop :=
  ∀ k byte, m ≤ k → k < n → ¬ Accepts offers ticks k byte

section
variable {offers offers' : Nat → Option UInt8} {ticks : Nat → Bool} {t k m n : Nat} {byte : UInt8}

theorem run_busy (h : (run offers ticks n).phase ≠ .idle) :
    run offers ticks (n + 1) = if ticks n then (run offers ticks n).tick else run offers ticks n :=
  clock_busy h

theorem Accepts.run_succ (h : Accepts offers ticks t byte) :
    run offers ticks (t + 1) = { line := false, busy := true, phase := .start byte } := by
  have hclock : run offers ticks (t + 1) = (run offers ticks t).clock (offers t) (ticks t) := rfl
  rw [hclock, h.offered]
  exact if_pos h.idle

/-! ## A frame -/

/-- Each tick puts the next bit on the line. -/
theorem Accepts.sends (h : Accepts offers ticks t byte) (ht : t < n) (hn : ticksBetween ticks t n < 10) :
    (run offers ticks n).Sends byte ∧ (run offers ticks n).phase.slot = ticksBetween ticks t n := by
  induction n, ht using Nat.le_induction with
  | base =>
    rw [Nat.succ_eq_add_one, h.run_succ, ticksBetween_start]
    exact ⟨⟨rfl, rfl, rfl⟩, rfl⟩
  | succ n ht ih =>
    have hbetween := @ticksBetween_succ ticks t n ht
    obtain ⟨hsends, hslot⟩ := ih (Nat.lt_of_le_of_lt (ticksBetween_mono (Nat.le_succ n)) hn)
    rw [run_busy hsends.ne_idle, hbetween]
    cases htick : ticks n with
    | false => exact ⟨hsends, hslot⟩
    | true =>
      rw [htick, if_pos rfl] at hbetween
      rw [if_pos rfl, if_pos rfl]
      rcases hsends.tick with ⟨hnext, hsucc⟩ | ⟨hlast, -⟩
      · exact ⟨hnext, hsucc.trans (congrArg (· + 1) hslot)⟩
      · omega

/-- The tenth tick ends the frame. -/
theorem Accepts.ends (h : Accepts offers ticks t byte) (hk : IsTick ticks t 10 k) :
    run offers ticks (k + 1) = {} := by
  have hcount := hk.counted
  obtain ⟨hsends, hslot⟩ := h.sends hk.after (hk.lt_of_le (Nat.le_refl k))
  rw [run_busy hsends.ne_idle, hk.ticked, if_pos rfl]
  rcases hsends.tick with ⟨hnext, hsucc⟩ | ⟨-, hidle⟩
  · have hle := hnext.slot_le
    omega
  · exact hidle

/-- Without a byte to send, nothing changes. -/
theorem run_rests (h : run offers ticks m = {}) (hnone : Undisturbed offers ticks m n) (hmn : m ≤ n) :
    run offers ticks n = {} := by
  induction n, hmn using Nat.le_induction with
  | base => exact h
  | succ n hmn ih =>
    have hn := ih fun k byte hmk hk => hnone k byte hmk (Nat.lt_succ_of_lt hk)
    have hclock : run offers ticks (n + 1) = (run offers ticks n).clock (offers n) (ticks n) := rfl
    rw [hclock, hn]
    cases hoffer : offers n with
    | none => rfl
    | some byte => exact absurd ⟨by rw [hn], hoffer⟩ (hnone n byte hmn (Nat.lt_succ_self n))

theorem Accepts.rests (h : Accepts offers ticks t byte) (ht : t < n) (hn : 10 ≤ ticksBetween ticks t n)
    (hnone : Undisturbed offers ticks (t + 1) n) : run offers ticks n = {} := by
  obtain ⟨k, hk, htick⟩ := exists_isTick (by decide) ht hn
  have hafter := htick.after
  refine run_rests (h.ends htick) (fun i byte hi => hnone i byte ?_) hk
  omega

/-! ## A whole run -/

theorem run_regular : ∀ n, (run offers ticks n).Regular
  | 0 => .inl rfl
  | n + 1 => (run_regular n).clock (offers n) (ticks n)

theorem run_congr (h : ∀ n, (run offers ticks n).phase = .idle → offers' n = offers n) :
    ∀ n, run offers' ticks n = run offers ticks n
  | 0 => rfl
  | n + 1 => by
    have hclock : run offers' ticks (n + 1) = (run offers' ticks n).clock (offers' n) (ticks n) := rfl
    rw [hclock, run_congr h n]
    by_cases hidle : (run offers ticks n).phase = .idle
    · rw [h n hidle]
      rfl
    · rw [clock_busy hidle, run_busy hidle]

/-- What follows when a byte is accepted in step `t`. -/
structure Delivers (offers : Nat → Option UInt8) (ticks : Nat → Bool) (t : Nat) (byte : UInt8) : Prop where
  start : ∀ n, t < n → ticksBetween ticks t n = 0 → (run offers ticks n).line = false
  bits : ∀ i n, i < 8 → t < n → ticksBetween ticks t n = i + 1 →
    (run offers ticks n).line = byteBit byte i
  stop : ∀ n, t < n → 9 ≤ ticksBetween ticks t n → Undisturbed offers ticks (t + 1) n →
    (run offers ticks n).line = true
  busy : ∀ n, t < n → ticksBetween ticks t n < 10 → (run offers ticks n).busy = true
  free : ∀ n, t < n → 10 ≤ ticksBetween ticks t n → Undisturbed offers ticks (t + 1) n →
    (run offers ticks n).busy = false
  refuses : ∀ n, t < n → ticksBetween ticks t n < 10 → ∀ byte', ¬ Accepts offers ticks n byte'

/-- The transmitter sends what it accepts, each byte in a frame of ten ticks, and nothing else. -/
structure Sending (offers : Nat → Option UInt8) (ticks : Nat → Bool) : Prop where
  busy_iff : ∀ n, (run offers ticks n).busy = true ↔ (run offers ticks n).phase ≠ .idle
  silent : ∀ n, Undisturbed offers ticks 0 n → run offers ticks n = {}
  delivers : ∀ t byte, Accepts offers ticks t byte → Delivers offers ticks t byte
  indifferent : ∀ offers', (∀ n, (run offers ticks n).phase = .idle → offers' n = offers n) →
    ∀ n, run offers' ticks n = run offers ticks n

theorem Accepts.delivers (h : Accepts offers ticks t byte) : Delivers offers ticks t byte := by
  have hline : ∀ {n}, t < n → ticksBetween ticks t n < 10 →
      (run offers ticks n).line = (frame byte).level (ticksBetween ticks t n) := by
    intro n ht hn
    obtain ⟨hsends, hslot⟩ := h.sends ht hn
    rw [hsends.line, hslot]
  refine ⟨?_, ?_, ?_, ?_, ?_, ?_⟩
  · intro n ht hn
    rw [hline ht (by omega), hn]
    exact Frame.level_start
  · intro i n hi ht hn
    rw [hline ht (by omega), hn]
    exact Frame.level_data hi
  · intro n ht hn hnone
    rcases Nat.eq_or_lt_of_le hn with hnine | hten
    · rw [hline ht (by omega), ← hnine]
      exact Frame.level_stop
    · rw [h.rests ht hten hnone]
  · intro n ht hn
    exact (h.sends ht hn).1.busy
  · intro n ht hn hnone
    rw [h.rests ht hn hnone]
  · intro n ht hn byte' haccepts
    exact (h.sends ht hn).1.ne_idle haccepts.idle

/-- Whatever is offered, and whenever the ticks come. -/
theorem sending_of_run (offers : Nat → Option UInt8) (ticks : Nat → Bool) : Sending offers ticks where
  busy_iff n := by
    rcases @run_regular offers ticks n with hrest | ⟨byte, hsends⟩
    · rw [hrest]
      decide
    · exact ⟨fun _ => hsends.ne_idle, fun _ => hsends.busy⟩
  silent n hnone := run_rests rfl hnone (Nat.zero_le n)
  delivers _ _ h := h.delivers
  indifferent _ h := run_congr h

end

end BrainfuckBoard.Transmitter
