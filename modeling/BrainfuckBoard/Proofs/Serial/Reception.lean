import BrainfuckBoard.Circuit.Receiver
import BrainfuckBoard.Proofs.Serial.Waveform

/- The receiver on the terminal's wire, at sixteen ticks to a bit and any number of
   steps to a tick. `Listening` ties the phase of the receiver to the levels it has
   yet to see and to the frames whose bytes are due. It is kept by every step, and
   what a step shows comes off the front of what is due (`Listening.clock`): the byte
   of a frame that ended well, and an error in the place of one that did not. A frame
   with a low stop bit needs a gap after it; the rest of its stop bit is taken for a
   start bit, and is high again when the receiver looks. -/
namespace BrainfuckBoard

/-! ## The receiver by itself -/

namespace Receiver

/-- The flags go with the phase. -/
structure Coherent (r : Receiver) : Prop where
  busy : r.busy = true ↔ r.phase ≠ .idle
  valid : r.valid = true → r.phase = .rest 0 ∧ r.frameError = false

/-- What a step shows of a frame that has ended: its byte, or an error. -/
def shown (r : Receiver) : List (Option UInt8) :=
  r.byte?.toList.map some ++ if r.frameError then [none] else []

/-- Ticks since the start bit was noticed. -/
def Phase.ticks : Phase → Nat
  | .idle => 0
  | .start n => n
  | .bits i n _ => 8 + 16 * i + n
  | .stop n _ => 136 + n
  | .rest n => 152 + n

section
variable {r : Receiver} {line ticked level : Bool}

theorem Coherent.idle (h : r.Coherent) (hb : r.busy = false) : r.phase = .idle := by
  apply Decidable.byContradiction
  intro hp
  rw [h.busy.mpr hp] at hb
  exact absurd hb (by decide)

theorem coherent_initial : ({} : Receiver).Coherent := ⟨by decide, nofun⟩

theorem shown_eq_nil (hv : r.valid = false) (he : r.frameError = false) : r.shown = [] := by
  simp [shown, byte?, hv, he]

theorem reduce_shown : r.shown.filterMap id = r.byte?.toList := by
  unfold shown
  cases r.byte? <;> cases r.frameError <;> rfl

/-- A step starts from the registers with the line let in and the flags taken back. -/
def shifted (r : Receiver) (line : Bool) : Receiver :=
  { r with first := line, second := r.first, valid := false, frameError := false }

theorem clock_idle_high (hp : r.phase = .idle) (hs : r.second = true) :
    r.clock line ticked = r.shifted line := by
  simp [clock, shifted, hp, hs]

theorem clock_idle_low (hp : r.phase = .idle) (hs : r.second = false) :
    r.clock line ticked = { r.shifted line with phase := .start 0, busy := true } := by
  simp [clock, shifted, hp, hs]

theorem clock_busy (hp : r.phase ≠ .idle) :
    r.clock line ticked = if ticked then (r.shifted line).tick r.second else r.shifted line := by
  simp [clock, shifted, hp]

theorem tick_registers : (r.tick level).first = r.first ∧ (r.tick level).second = r.second := by
  unfold tick
  repeat' split
  all_goals exact ⟨rfl, rfl⟩

theorem clock_registers :
    (r.clock line ticked).first = line ∧ (r.clock line ticked).second = r.first := by
  by_cases hp : r.phase = .idle
  · cases hs : r.second
    · rw [clock_idle_low hp hs]
      exact ⟨rfl, rfl⟩
    · rw [clock_idle_high hp hs]
      exact ⟨rfl, rfl⟩
  · rw [clock_busy hp]
    cases ticked
    · exact ⟨rfl, rfl⟩
    · exact tick_registers

/-- A byte shows at the beginning of the rest of its stop bit. -/
theorem Coherent.tick (hb : r.busy = true) (hv : r.valid = false) (he : r.frameError = false)
    (hp : r.phase ≠ .idle) : (r.tick level).Coherent := by
  unfold Receiver.tick
  split
  · next heq => exact absurd heq hp
  · next n heq =>
    split
    · split
      · exact ⟨by simp, by simp [hv]⟩
      · exact ⟨by simp [hb], by simp [hv]⟩
    · exact ⟨by simp [hb], by simp [hv]⟩
  · next i n shift heq =>
    split
    · refine ⟨?_, by simp [hv]⟩
      dsimp only
      split <;> simp [hb]
    · exact ⟨by simp [hb], by simp [hv]⟩
  · next n byte heq =>
    split
    · split
      · exact ⟨by simp [hb], by simp [he]⟩
      · exact ⟨by simp [hb], by simp [hv]⟩
    · exact ⟨by simp [hb], by simp [hv]⟩
  · next n heq =>
    split
    · exact ⟨by simp, by simp [hv]⟩
    · exact ⟨by simp [hb], by simp [hv]⟩

theorem Coherent.clock (h : r.Coherent) : (r.clock line ticked).Coherent := by
  by_cases hp : r.phase = .idle
  · have hb : r.busy = false := by simpa [hp] using h.busy
    cases hs : r.second
    · rw [clock_idle_low hp hs]
      exact ⟨by simp, nofun⟩
    · rw [clock_idle_high hp hs]
      exact ⟨by simp [shifted, hp, hb], nofun⟩
  · have hb : r.busy = true := h.busy.mpr hp
    rw [clock_busy hp]
    cases ticked
    · exact ⟨by simp [shifted, hp, hb], nofun⟩
    · exact Coherent.tick hb rfl rfl hp

/-- Only a good byte changes the data. -/
theorem tick_data (hv : (r.tick level).valid = false) : (r.tick level).data = r.data := by
  unfold tick at hv ⊢
  split at hv
  · rfl
  · split
    · split <;> rfl
    · rfl
  · split <;> rfl
  · split at hv
    · split at hv
      · exact absurd hv.symm Bool.false_ne_true
      · next hn hlow => rw [if_pos hn, if_neg hlow]
    · next hn => rw [if_neg hn]
  · split <;> rfl

theorem clock_data (hv : (r.clock line ticked).valid = false) : (r.clock line ticked).data = r.data := by
  by_cases hp : r.phase = .idle
  · cases hs : r.second
    · rw [clock_idle_low hp hs]
      rfl
    · rw [clock_idle_high hp hs]
      rfl
  · rw [clock_busy hp] at hv ⊢
    cases ticked
    · rfl
    · exact tick_data hv

theorem tick_ticks (hp : (r.tick level).phase ≠ .idle) (hr : r.phase ≠ .idle) :
    (r.tick level).phase.ticks = r.phase.ticks + 1 := by
  unfold tick at hp ⊢
  split at hp
  · next heq => exact absurd heq hr
  · next n heq =>
    rw [heq]
    split at hp
    · next hn =>
      subst hn
      split at hp
      · exact absurd rfl hp
      · next hlow => simp [hlow, Phase.ticks, startTicks]
    · next hn => simp [hn, Phase.ticks]
  · next i n shift heq =>
    rw [heq]
    dsimp only
    split
    · next hn =>
      dsimp only
      split
      · next hi => simp [hi, hn, Phase.ticks, ticksPerBit]
      · simp only [hn, Phase.ticks, ticksPerBit]
        omega
    · rfl
  · next n byte heq =>
    rw [heq]
    split
    · next hn =>
      subst hn
      split <;> rfl
    · rfl
  · next n heq =>
    rw [heq]
    split at hp
    · exact absurd rfl hp
    · next hn => simp [hn, Phase.ticks, Nat.add_assoc]

/-- While the receiver is busy it counts the ticks. -/
theorem clock_ticks (hr : r.phase ≠ .idle) (hp : (r.clock line ticked).phase ≠ .idle) :
    (r.clock line ticked).phase.ticks = r.phase.ticks + if ticked then 1 else 0 := by
  rw [clock_busy hr] at hp ⊢
  cases ticked
  · rfl
  · exact tick_ticks hp hr

/-- And so it counts the steps, `lag` of them since the last tick. -/
theorem elapsed_next {ticks ticks' lag D : Nat} (h : ticks' = ticks + if ticked then 1 else 0)
    (ht : ticked = true ↔ lag = D) :
    ticks' * D + (if ticked then 1 else lag + 1) = ticks * D + lag + 1 := by
  cases ticked with
  | false =>
    rw [h, if_neg Bool.false_ne_true, if_neg Bool.false_ne_true]
    rfl
  | true => rw [h, if_pos rfl, if_pos rfl, Nat.succ_mul, ht.mp rfl]

theorem lag_next {lag D : Nat} (hD : 0 < D) (hlag : lag ≤ D) (ht : ticked = true ↔ lag = D) :
    0 < (if ticked then 1 else lag + 1) ∧ (if ticked then 1 else lag + 1) ≤ D := by
  cases ticked with
  | false =>
    have hne : lag ≠ D := fun heq => Bool.false_ne_true (ht.mpr heq)
    rw [if_neg Bool.false_ne_true]
    omega
  | true =>
    rw [if_pos rfl]
    exact ⟨Nat.one_pos, hD⟩

theorem elapsed_clock {c : BaudClock} {D : Nat} (hc : c.Paced D) (hr : r.phase ≠ .idle)
    (hp : (r.clock line c.oversampleTick).phase ≠ .idle) (sending : Bool) :
    (r.clock line c.oversampleTick).phase.ticks * D + (c.clock sending).lag =
      r.phase.ticks * D + c.lag + 1 := by
  rw [hc.lag_clock]
  exact elapsed_next (clock_ticks hr hp) hc.tick_iff

/-- A receiver that stays in a frame up to `last` steps, and has less than `d` of them to go, leaves it. -/
theorem exists_rest {busy : Nat → Bool} {elapsed : Nat → Nat} {last d : Nat}
    (hnext : ∀ k, k < d → busy k = true → busy (k + 1) = true → elapsed (k + 1) = elapsed k + 1)
    (hfrom : busy 0 = true → last < elapsed 0 + d) (hto : busy d = true → elapsed d ≤ last) :
    ∃ k, k ≤ d ∧ busy k = false := by
  apply Classical.byContradiction
  intro hnone
  have hbusy : ∀ k, k ≤ d → busy k = true := fun k hk =>
    eq_true_of_ne_false fun hidle => hnone ⟨k, hk, hidle⟩
  have hcounts : ∀ k, k ≤ d → elapsed k = elapsed 0 + k := by
    intro k hk
    induction k with
    | zero => rfl
    | succ k ih =>
      rw [hnext k hk (hbusy k (Nat.le_of_succ_le hk)) (hbusy (k + 1) hk), ih (Nat.le_of_succ_le hk),
        Nat.add_assoc]
  have hstart := hfrom (hbusy 0 (Nat.zero_le d))
  have hend := hto (hbusy d (Nat.le_refl d))
  rw [hcounts d (Nat.le_refl d)] at hend
  omega

end

end Receiver

/-! ## The receiver in a frame -/

namespace Frame

/-- What the receiver is to show of a frame. -/
def reading (f : Frame) : Option UInt8 := if f.stop then some f.byte else none

/-- A low stop bit is followed by a gap. -/
def Clear (f : Frame) : Prop := f.stop = true ∨ 1 ≤ f.gap

end Frame

namespace Receiver

/-- The shift register after the first `i` bits of a byte. -/
def assembled (byte : UInt8) : Nat → UInt8
  | 0 => 0
  | i + 1 => shiftIn (assembled byte i) (byteBit byte i)

theorem assembled_eight (byte : UInt8) : assembled byte 8 = byte := by
  apply forall_byte (p := fun byte => assembled byte 8 = byte)
  decide +kernel

/-- The phase is one that a receiver goes through in the frame. -/
def Phase.Hears (f : Frame) : Phase → Prop
  | .idle => False
  | .start n => n ≤ 7
  | .bits i n shift => i ≤ 7 ∧ n ≤ 15 ∧ shift = assembled f.byte i
  | .stop n byte => n ≤ 15 ∧ byte = f.byte
  | .rest n => n ≤ 6

/-- The frame is due until the receiver has looked at its stop bit. -/
def Phase.owed (f : Frame) : Phase → List Frame
  | .rest _ => []
  | _ => [f]

section
variable {r : Receiver} {f : Frame} {level : Bool}

theorem Phase.Hears.ne_idle {phase : Phase} (h : phase.Hears f) : phase ≠ .idle := by
  rintro rfl
  exact h

theorem Phase.Hears.ticks_le {phase : Phase} (h : phase.Hears f) : phase.ticks ≤ 158 := by
  cases phase <;> simp only [Phase.Hears, Phase.ticks] at h ⊢ <;> omega

/-- A tick: bit `m` of the frame is looked at after `8 + 16 * m` of them, and the
    receiver leaves the frame a tick before its end. -/
theorem Phase.Hears.tick (h : r.phase.Hears f) (hv : r.valid = false) (he : r.frameError = false)
    (hlevel : ∀ m, r.phase.ticks + 1 = 8 + 16 * m → level = f.level m) :
    ((r.tick level).phase.Hears f ∧ (r.tick level).phase.ticks = r.phase.ticks + 1 ∧
      (r.tick level).shown ++ ((r.tick level).phase.owed f).map Frame.reading =
        (r.phase.owed f).map Frame.reading) ∨
    (r.phase = .rest 6 ∧ (r.tick level).phase = .idle ∧ (r.tick level).shown = []) := by
  have hquiet : ∀ phase busy, ({ r with phase := phase, busy := busy } : Receiver).shown = [] :=
    fun phase busy => shown_eq_nil hv he
  cases hp : r.phase with
  | idle =>
    rw [hp] at h
    exact h.elim
  | start n =>
    simp only [hp, Phase.Hears, Phase.ticks] at h hlevel
    left
    by_cases hn : n = 7
    · obtain rfl : level = false := hlevel 0 (by omega)
      have htick : r.tick false = { r with phase := .bits 0 0 0 } := by
        simp [Receiver.tick, hp, hn, startTicks]
      rw [htick, hn]
      exact ⟨⟨by omega, by omega, rfl⟩, rfl, by rw [hquiet]; rfl⟩
    · have htick : r.tick level = { r with phase := .start (n + 1) } := by
        simp [Receiver.tick, hp, hn, startTicks]
      rw [htick]
      exact ⟨by simp only [Phase.Hears]; omega, rfl, by rw [hquiet]; rfl⟩
  | bits i n shift =>
    simp only [hp, Phase.Hears, Phase.ticks] at h hlevel
    obtain ⟨hi, hn, rfl⟩ := h
    left
    by_cases hlast : n = 15
    · -- The sixteenth tick is in the middle of the data bit.
      have hbit : level = byteBit f.byte i := by
        rw [hlevel (i + 1) (by omega)]
        exact Frame.level_data (by omega)
      subst hbit
      have htick : r.tick (byteBit f.byte i) = { r with
          phase := if i = 7 then .stop 0 (assembled f.byte (i + 1))
            else .bits (i + 1) 0 (assembled f.byte (i + 1)) } := by
        simp [Receiver.tick, hp, hlast, ticksPerBit, assembled]
      rw [htick]
      split
      · next h7 =>
        subst h7
        exact ⟨⟨by omega, assembled_eight f.byte⟩, by simp [Phase.ticks, hlast], by rw [hquiet]; rfl⟩
      · exact ⟨⟨by omega, by omega, rfl⟩, by simp only [Phase.ticks]; omega, by rw [hquiet]; rfl⟩
    · have htick : r.tick level = { r with phase := .bits i (n + 1) (assembled f.byte i) } := by
        simp [Receiver.tick, hp, hlast, ticksPerBit]
      rw [htick]
      exact ⟨⟨hi, by omega, rfl⟩, rfl, by rw [hquiet]; rfl⟩
  | stop n byte =>
    simp only [hp, Phase.Hears, Phase.ticks] at h hlevel
    obtain ⟨hn, rfl⟩ := h
    left
    by_cases hlast : n = 15
    · obtain rfl : level = f.stop := hlevel 9 (by omega)
      have htick : r.tick f.stop =
          if f.stop then { r with phase := .rest 0, data := f.byte, valid := true }
          else { r with phase := .rest 0, frameError := true } := by
        simp [Receiver.tick, hp, hlast, ticksPerBit]
      rw [htick, hlast]
      cases hstop : f.stop
      · exact ⟨Nat.zero_le _, rfl, by simp [shown, byte?, hv, Phase.owed, Frame.reading, hstop]⟩
      · exact ⟨Nat.zero_le _, rfl, by simp [shown, byte?, he, Phase.owed, Frame.reading, hstop]⟩
    · have htick : r.tick level = { r with phase := .stop (n + 1) f.byte } := by
        simp [Receiver.tick, hp, hlast, ticksPerBit]
      rw [htick]
      exact ⟨⟨by omega, rfl⟩, rfl, by rw [hquiet]; rfl⟩
  | rest n =>
    simp only [hp, Phase.Hears] at h
    by_cases hn : n = 6
    · have htick : r.tick level = { r with phase := .idle, busy := false } := by
        simp [Receiver.tick, hp, hn, restTicks]
      rw [htick, hn]
      exact .inr ⟨rfl, rfl, hquiet _ _⟩
    · have htick : r.tick level = { r with phase := .rest (n + 1) } := by
        simp [Receiver.tick, hp, hn, restTicks]
      rw [htick]
      exact .inl ⟨by simp only [Phase.Hears]; omega, rfl, by rw [hquiet]; rfl⟩

/-- A step in a frame: the line is looked at in the middle of the bits, and the receiver leaves
    the frame at a tick. -/
theorem Phase.Hears.clock {line ticked : Bool} (h : r.phase.Hears f)
    (hlevel : ticked = true → ∀ m, r.phase.ticks + 1 = 8 + 16 * m → r.second = f.level m) :
    ((r.clock line ticked).phase.Hears f ∧
      (r.clock line ticked).phase.ticks = r.phase.ticks + (if ticked then 1 else 0) ∧
      (r.clock line ticked).shown ++ ((r.clock line ticked).phase.owed f).map Frame.reading =
        (r.phase.owed f).map Frame.reading) ∨
    (ticked = true ∧ r.phase = .rest 6 ∧ (r.clock line ticked).phase = .idle ∧
      (r.clock line ticked).shown = []) := by
  rw [clock_busy h.ne_idle]
  cases ticked with
  | false =>
    rw [if_neg Bool.false_ne_true]
    exact .inl ⟨h, rfl, by rw [shown_eq_nil rfl rfl]; rfl⟩
  | true =>
    rw [if_pos rfl]
    have hshifted : (r.shifted line).phase.Hears f := h
    rcases hshifted.tick rfl rfl (hlevel rfl) with hnext | hlast
    · exact .inl hnext
    · exact .inr ⟨rfl, hlast⟩

/-- The same in steps, `lag` of them after the last tick. -/
theorem Phase.Hears.clock_paced {line ticked : Bool} {D lag : Nat} (h : r.phase.Hears f)
    (ht : ticked = true ↔ lag = D)
    (hlevel : ∀ m, m ≤ 9 → r.phase.ticks * D + lag = (8 + 16 * m) * D → r.second = f.level m) :
    ((r.clock line ticked).phase.Hears f ∧
      (r.clock line ticked).phase.ticks * D + (if ticked then 1 else lag + 1) =
        r.phase.ticks * D + lag + 1 ∧
      (r.clock line ticked).shown ++ ((r.clock line ticked).phase.owed f).map Frame.reading =
        (r.phase.owed f).map Frame.reading) ∨
    (r.phase = .rest 6 ∧ r.phase.ticks * D + lag = 159 * D ∧ (r.clock line ticked).phase = .idle ∧
      (r.clock line ticked).shown = []) := by
  have hlooks : ticked = true → ∀ m, r.phase.ticks + 1 = 8 + 16 * m → r.second = f.level m := by
    intro htick m hm
    have hle := h.ticks_le
    refine hlevel m (by omega) ?_
    rw [← hm, Nat.succ_mul, ht.mp htick]
  rcases @clock r f line ticked h hlooks with ⟨hnext, hcount, hshown⟩ | ⟨htick, hlast, hidle, hshown⟩
  · exact .inl ⟨hnext, elapsed_next hcount ht, hshown⟩
  · refine .inr ⟨hlast, ?_, hidle, hshown⟩
    rw [hlast, ht.mp htick]
    simp only [Phase.ticks]
    omega

/-! ## What a run shows -/

/-- The bytes among what is shown are those that are flagged. -/
theorem flagged_of_shown {rs : Nat → Receiver} {n : Nat} {due : List Frame} {bytes : List UInt8}
    (h : ((List.range n).flatMap fun k => (rs (k + 1)).shown) ++ due.map Frame.reading = bytes.map some) :
    ((List.range n).flatMap fun k => (rs (k + 1)).byte?.toList) ++ due.filterMap Frame.reading = bytes := by
  have hreduce := congrArg (List.filterMap id) h
  rw [List.filterMap_append, List.filterMap_flatMap, List.filterMap_map, List.filterMap_map] at hreduce
  simp only [reduce_shown] at hreduce
  exact hreduce.trans List.filterMap_some

/-- No error is shown where bytes are due. -/
theorem frameError_of_shown {rs : Nat → Receiver} {n k : Nat} {due : List Frame} {bytes : List UInt8}
    (h : ((List.range n).flatMap fun k => (rs (k + 1)).shown) ++ due.map Frame.reading = bytes.map some)
    (hk : k < n) : (rs (k + 1)).frameError = false := by
  apply Bool.eq_false_iff.mpr
  intro herror
  have hshown : none ∈ (rs (k + 1)).shown := by simp [shown, herror]
  have hnone : none ∈ bytes.map some := by
    rw [← h]
    exact List.mem_append_left _ (List.mem_flatMap.mpr ⟨k, List.mem_range.mpr hk, hshown⟩)
  simp at hnone

end

end Receiver

/-! ## The receiver and the wire -/

open List (replicate)

/-- The waves of frames that go out one after the other, at `16 * D` steps to a bit. -/
def waves (D : Nat) (frames : List Frame) : List Bool := frames.flatMap (Frame.wave (16 * D))

/-- The receiver's phase, the levels it has yet to see, and the frames that are due,
    `lag` steps after the last tick.
    1. Between frames the line may still be low, from a bad stop bit.
    2. In a frame, the next level is at `e`, and `c` is the delay from the fall of the
       line to the first step that was counted.
    3. The rest of a bad stop bit has been taken for a start bit. -/
inductive Listening (D lag : Nat) : Receiver.Phase → List Bool → List Frame → Prop
  | quiet {pending : List Frame} (low high : Nat) (hlow : low ≤ 2 * D)
      (hhigh : 0 < low → 16 * D ≤ high) :
      Listening D lag .idle (replicate low false ++ (replicate high true ++ waves D pending)) pending
  | hearing {phase : Receiver.Phase} (f : Frame) (e c high : Nat) (pending : List Frame)
      (hhears : phase.Hears f) (hclear : f.Clear) (hc : c < D) (he : e + c = phase.ticks * D + lag) :
      Listening D lag phase ((f.wave (16 * D)).drop e ++ (replicate high true ++ waves D pending))
        (phase.owed f ++ pending)
  | mistaken {pending : List Frame} (n low high : Nat) (hn : n ≤ 7)
      (hlow : 0 < low → low + (n * D + lag) ≤ 3 * D) (hhigh : 16 * D ≤ high + (n * D + lag)) :
      Listening D lag (.start n) (replicate low false ++ (replicate high true ++ waves D pending)) pending

namespace Listening

section
variable {D lag : Nat} {phase : Receiver.Phase} {r : Receiver} {levels rest : List Bool}
  {due : List Frame} {line ticked : Bool}

theorem silence (D lag high : Nat) : Listening D lag .idle (replicate high true) [] := by
  have h := @quiet D lag [] 0 high (Nat.zero_le _) nofun
  simpa [waves] using h

/-- Where the receiver looks, `8 + 16 * m` ticks after the line fell, is bit `m`. -/
theorem slot_eq {e c m : Nat} (hc : c < D) (he : e + c = (8 + 16 * m) * D) : e / (16 * D) = m := by
  rw [Nat.add_mul, Nat.mul_assoc] at he
  have hm : m * (16 * D) = 16 * (m * D) := Nat.mul_left_comm _ _ _
  apply Nat.div_eq_of_lt_le
  · omega
  · rw [Nat.succ_mul]
    omega

theorem queued (h : Listening D lag phase levels due) (frames : List Frame) :
    Listening D lag phase (levels ++ waves D frames) (due ++ frames) := by
  have hwaves : ∀ pending, waves D pending ++ waves D frames = waves D (pending ++ frames) :=
    fun _ => List.flatMap_append.symm
  cases h with
  | quiet low high hlow hhigh =>
    rw [List.append_assoc, List.append_assoc, hwaves]
    exact quiet low high hlow hhigh
  | hearing f e c high pending hhears hclear hc he =>
    rw [List.append_assoc, List.append_assoc, List.append_assoc, hwaves]
    exact hearing f e c high (pending ++ frames) hhears hclear hc he
  | mistaken n low high hn hlow hhigh =>
    rw [List.append_assoc, List.append_assoc, hwaves]
    exact mistaken n low high hn hlow hhigh

theorem length_waves_cons (f : Frame) (frames : List Frame) :
    160 * D ≤ (waves D (f :: frames)).length := by
  have h := Nat.mul_le_mul_right (16 * D) (Frame.ten_le_length (f := f))
  simp only [waves, List.flatMap_cons, List.length_append, Frame.length_wave]
  omega

/-- The line stays high when everything has gone out. -/
theorem padded (h : Listening D lag phase levels due) (hlen : levels.length < 160 * D) :
    Listening D lag phase (levels ++ [true]) due := by
  have hnil : ∀ pending, (waves D pending).length < 160 * D → pending = [] := by
    intro pending hp
    cases pending with
    | nil => rfl
    | cons f frames =>
      have hlong := @length_waves_cons D f frames
      omega
  have hhigh : ∀ high,
      replicate high true ++ waves D [] ++ [true] = replicate (high + 1) true ++ waves D [] := by
    intro high
    simp [waves, List.replicate_succ']
  cases h with
  | quiet low high hlow hh =>
    obtain rfl := hnil due (by simp only [List.length_append] at hlen; omega)
    rw [List.append_assoc, hhigh]
    exact quiet low (high + 1) hlow fun hl => Nat.le_succ_of_le (hh hl)
  | hearing f e c high pending hhears hclear hc he =>
    obtain rfl := hnil pending (by simp only [List.length_append] at hlen; omega)
    rw [List.append_assoc, hhigh]
    exact hearing f e c (high + 1) [] hhears hclear hc he
  | mistaken n low high hn hlow hh =>
    obtain rfl := hnil due (by simp only [List.length_append] at hlen; omega)
    rw [List.append_assoc, hhigh]
    exact mistaken n low (high + 1) hn hlow (by omega)

/-- The next level of a line that is low and then high. -/
theorem between_next {low high : Nat} {tail : List Bool} {level : Bool} (hhigh : 0 < high)
    (hw : replicate low false ++ (replicate high true ++ tail) = level :: rest) :
    (level = false ∧ ∃ l, low = l + 1 ∧ rest = replicate l false ++ (replicate high true ++ tail)) ∨
    (level = true ∧ low = 0 ∧
      ∃ k, high = k + 1 ∧ rest = replicate 0 false ++ (replicate k true ++ tail)) := by
  cases low with
  | zero =>
    obtain ⟨k, rfl⟩ : ∃ k, high = k + 1 := ⟨high - 1, by omega⟩
    simp only [List.replicate_succ, List.replicate_zero, List.nil_append, List.cons_append,
      List.cons.injEq] at hw
    exact .inr ⟨hw.1.symm, rfl, k, rfl, hw.2.symm⟩
  | succ l =>
    simp only [List.replicate_succ, List.cons_append, List.cons.injEq] at hw
    exact .inl ⟨hw.1.symm, l, rfl, hw.2.symm⟩

/-- What a step of the receiver makes of the frames that are due. -/
def Hands (D lag : Nat) (r : Receiver) (rest : List Bool) (due : List Frame) : Prop :=
  ∃ due', Listening D lag r.phase rest due' ∧ due' <:+ due ∧
    r.shown ++ due'.map Frame.reading = due.map Frame.reading

theorem hands_silent (h : Listening D lag r.phase rest due) (hv : r.valid = false)
    (he : r.frameError = false) : Hands D lag r rest due :=
  ⟨due, h, List.suffix_refl due, by rw [Receiver.shown_eq_nil hv he]; rfl⟩

theorem clock_quiet {low high lag' : Nat} (hlow : low ≤ 2 * D) (hhigh : 0 < low → 16 * D ≤ high)
    (hD : 0 < D) (hlag₀ : 0 < lag') (hlag : lag' ≤ D) (hp : r.phase = .idle)
    (hw : replicate low false ++ (replicate high true ++ waves D due) = r.second :: rest)
    (hdue : ∀ f ∈ due, f.Clear) : Hands D lag' (r.clock line ticked) rest due := by
  by_cases hany : 0 < high
  · rcases between_next hany hw with ⟨hs, l, rfl, rfl⟩ | ⟨hs, -, k, rfl, rfl⟩
    · rw [Receiver.clock_idle_low hp hs]
      exact hands_silent (mistaken 0 l high (by omega) (by omega) (by omega)) rfl rfl
    · rw [Receiver.clock_idle_high hp hs]
      apply hands_silent _ rfl rfl
      rw [show (r.shifted line).phase = .idle from hp]
      exact quiet 0 k (Nat.zero_le _) nofun
  · obtain rfl : high = 0 := by omega
    obtain rfl : low = 0 := by
      apply Decidable.byContradiction
      intro hl
      have hlong := hhigh (by omega)
      omega
    cases due with
    | nil => simp [waves] at hw
    | cons f pending =>
      -- The frame that the line falls for is the one in front.
      have hstart : f.wave (16 * D) = false :: (f.wave (16 * D)).drop 1 := Frame.wave_start (by omega)
      have hwaves : waves D (f :: pending) =
          false :: ((f.wave (16 * D)).drop 1 ++ waves D pending) := by
        rw [waves, List.flatMap_cons, hstart]
        rfl
      rw [List.replicate_zero, List.replicate_zero, List.nil_append, List.nil_append, hwaves,
        List.cons.injEq] at hw
      obtain ⟨hs, rfl⟩ := hw
      rw [Receiver.clock_idle_low hp hs.symm]
      apply hands_silent _ rfl rfl
      exact hearing f 1 (lag' - 1) 0 pending (Nat.zero_le _) (hdue f List.mem_cons_self) (by omega)
        (by simp only [Receiver.Phase.ticks]; omega)

/-- The rest of a frame that the receiver has left is as good as silence. -/
theorem quiet_of_drop {f : Frame} {e high : Nat} (hD : 0 < D) (hclear : f.Clear)
    (h₀ : 158 * D < e) (h₁ : e ≤ 160 * D) :
    Listening D lag .idle ((f.wave (16 * D)).drop e ++ (replicate high true ++ waves D due)) due := by
  rw [Frame.drop_wave_stop (by omega) (by omega) (by omega)]
  cases hstop : f.stop
  · -- The stop bit is low, and the gap after it is what makes the line high for long enough.
    rw [List.append_assoc, ← List.append_assoc (replicate (f.gap * (16 * D)) true),
      List.replicate_append_replicate]
    apply quiet _ _ (by omega)
    intro hlow
    have hgap : 1 ≤ f.gap := hclear.resolve_left (by simp [hstop])
    have hle := Nat.mul_le_mul_right (16 * D) hgap
    omega
  · rw [← List.append_assoc, List.replicate_append_replicate, List.replicate_append_replicate]
    exact quiet 0 _ (Nat.zero_le _) nofun

/-- A receiver that is still busy when two levels are left has come to the end of a
    frame. -/
theorem elapsed_of_busy (h : Listening D lag phase levels due) (hp : phase ≠ .idle) (hD : 0 < D)
    (hlag : lag ≤ D) (hlen : levels.length ≤ 2) :
    160 * D ≤ phase.ticks * D + lag + 2 ∧ phase.ticks * D + lag ≤ 159 * D := by
  cases h with
  | quiet => exact absurd rfl hp
  | hearing f e c high pending hhears hclear hc he =>
    have hticks := Nat.mul_le_mul_right D hhears.ticks_le
    have hten := Nat.mul_le_mul_right (16 * D) (Frame.ten_le_length (f := f))
    simp only [List.length_append, List.length_drop, Frame.length_wave] at hlen
    omega
  | mistaken n low high hn hlow hhigh =>
    have hticks := Nat.mul_le_mul_right D hn
    simp only [List.length_append, List.length_replicate] at hlen
    omega

/-- An idle receiver with two levels left has shown everything. -/
theorem due_of_idle (h : Listening D lag .idle levels due) (hD : 0 < D) (hlen : levels.length ≤ 2) :
    due = [] := by
  cases h with
  | quiet low high =>
    cases due with
    | nil => rfl
    | cons f pending =>
      have hlong := @length_waves_cons D f pending
      simp only [List.length_append] at hlen
      omega
  | hearing f e c high pending hhears => exact hhears.elim

/-- The line is high at the end. -/
theorem high_of_idle {level : Bool} (h : Listening D lag .idle levels due) (hw : levels = level :: rest)
    (hD : 0 < D) (hlen : rest.length ≤ 1) : level = true := by
  have hlevels : levels.length ≤ 2 := by
    rw [hw]
    exact Nat.succ_le_succ hlen
  obtain rfl := h.due_of_idle hD hlevels
  cases h with
  | quiet low high hlow hhigh =>
    obtain rfl : low = 0 := by
      apply Decidable.byContradiction
      intro hl
      have hlong := hhigh (by omega)
      simp only [List.length_append, List.length_replicate] at hlevels
      omega
    cases high with
    | zero => exact absurd hw nofun
    | succ k => exact (List.cons.inj hw).1.symm

theorem owed_eq (phase : Receiver.Phase) (f : Frame) : phase.owed f = [] ∨ phase.owed f = [f] := by
  cases phase with
  | rest => exact .inl rfl
  | _ => exact .inr rfl

/-- A frame that is not due any more does not become due again. -/
theorem owed_suffix {phase' : Receiver.Phase} {f : Frame} {shown : List (Option UInt8)}
    (h : shown ++ (phase'.owed f).map Frame.reading = (phase.owed f).map Frame.reading) :
    phase'.owed f <:+ phase.owed f := by
  rcases owed_eq phase' f with h' | h'
  · rw [h']
    exact List.nil_suffix
  · rcases owed_eq phase f with h₀ | h₀
    · rw [h', h₀] at h
      exact absurd h (List.append_ne_nil_of_right_ne_nil _ (List.cons_ne_nil _ _))
    · rewrite [h', h₀]
      exact List.suffix_refl _

theorem clock_hearing {f : Frame} {e c high : Nat} {pending : List Frame} (hhears : r.phase.Hears f)
    (hclear : f.Clear) (hc : c < D) (he : e + c = r.phase.ticks * D + lag) (hlag : lag ≤ D)
    (ht : ticked = true ↔ lag = D)
    (hw : (f.wave (16 * D)).drop e ++ (replicate high true ++ waves D pending) = r.second :: rest) :
    Hands D (if ticked then 1 else lag + 1) (r.clock line ticked) rest (r.phase.owed f ++ pending) := by
  have hticks := Nat.mul_le_mul_right D hhears.ticks_le
  have hdrop : e < f.length * (16 * D) := by
    have hten := Nat.mul_le_mul_right (16 * D) (Frame.ten_le_length (f := f))
    omega
  rw [Frame.drop_wave hdrop, List.cons_append, List.cons.injEq] at hw
  obtain ⟨hlevel, rfl⟩ := hw
  have hslot : ∀ m, m ≤ 9 → r.phase.ticks * D + lag = (8 + 16 * m) * D → r.second = f.level m := by
    intro m _ hmiddle
    rw [← hlevel, slot_eq hc (he.trans hmiddle)]
  rcases @Receiver.Phase.Hears.clock_paced r f line ticked D lag hhears ht hslot with
    ⟨hnext, helapsed, hshown⟩ | ⟨hlast, hend, hidle, hshown⟩
  · refine ⟨_, hearing f (e + 1) c high pending hnext hclear hc (by omega),
      List.suffix_append_self_iff.mpr (owed_suffix hshown), ?_⟩
    rw [List.map_append, List.map_append, ← List.append_assoc, hshown]
  · -- The receiver leaves the frame, a tick before the frame is over.
    refine ⟨pending, ?_, List.suffix_append _ _, ?_⟩
    · rw [hidle]
      exact quiet_of_drop (by omega) hclear (by omega) (by omega)
    · rw [hshown, hlast]
      rfl

theorem clock_mistaken {n low high : Nat} (hn : n ≤ 7) (hlow : 0 < low → low + (n * D + lag) ≤ 3 * D)
    (hhigh : 16 * D ≤ high + (n * D + lag)) (hD : 0 < D) (hlag : lag ≤ D)
    (ht : ticked = true ↔ lag = D) (hp : r.phase = .start n)
    (hw : replicate low false ++ (replicate high true ++ waves D due) = r.second :: rest) :
    Hands D (if ticked then 1 else lag + 1) (r.clock line ticked) rest due := by
  have hticks := Nat.mul_le_mul_right D hn
  have hsucc : (n + 1) * D = n * D + D := Nat.succ_mul _ _
  have hnext := between_next (by omega) hw
  rw [Receiver.clock_busy (by rw [hp]; exact nofun)]
  cases ticked with
  | false =>
    rw [if_neg (by decide), if_neg (by decide)]
    apply hands_silent _ rfl rfl
    rw [show (r.shifted line).phase = .start n from hp]
    rcases hnext with ⟨-, l, rfl, rfl⟩ | ⟨-, rfl, k, rfl, rfl⟩
    · exact mistaken n l high hn (by omega) (by omega)
    · exact mistaken n 0 k hn nofun (by omega)
  | true =>
    obtain rfl : lag = D := ht.mp rfl
    rw [if_pos rfl, if_pos rfl]
    by_cases h7 : n = 7
    · -- The stop bit is over by now, and the glitch with it.
      subst h7
      rcases hnext with ⟨-, l, rfl, -⟩ | ⟨hs, rfl, k, rfl, rfl⟩
      · have hshort := hlow (by omega)
        omega
      · have htick : (r.shifted line).tick r.second =
            { r.shifted line with phase := .idle, busy := false } := by
          simp [Receiver.tick, Receiver.shifted, hp, hs, Receiver.startTicks]
        rw [htick]
        exact hands_silent (quiet 0 k (Nat.zero_le _) nofun) rfl rfl
    · have htick : (r.shifted line).tick r.second =
          { r.shifted line with phase := .start (n + 1) } := by
        simp [Receiver.tick, Receiver.shifted, hp, h7, Receiver.startTicks]
      rw [htick]
      apply hands_silent _ rfl rfl
      rcases hnext with ⟨-, l, rfl, rfl⟩ | ⟨-, rfl, k, rfl, rfl⟩
      · exact mistaken (n + 1) l high (by omega) (by omega) (by omega)
      · exact mistaken (n + 1) 0 k (by omega) nofun (by omega)

/-- One step: the invariant stays, and what the step shows was due next. -/
theorem clock (h : Listening D lag phase levels due) (hp : r.phase = phase) (hw : levels = r.second :: rest)
    (hD : 0 < D) (hlag : lag ≤ D) (ht : ticked = true ↔ lag = D) (hdue : ∀ f ∈ due, f.Clear) :
    Hands D (if ticked then 1 else lag + 1) (r.clock line ticked) rest due := by
  obtain ⟨hlag₀, hlag'⟩ := Receiver.lag_next hD hlag ht
  cases h with
  | quiet low high hlow hhigh =>
    exact clock_quiet hlow hhigh hD hlag₀ hlag' hp hw hdue
  | hearing f e c high pending hhears hclear hc he =>
    subst hp
    exact clock_hearing hhears hclear hc he hlag ht hw
  | mistaken n low high hn hlow hhigh =>
    exact clock_mistaken hn hlow hhigh hD hlag ht hp hw

end

end Listening

end BrainfuckBoard
