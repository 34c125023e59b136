import BrainfuckBoard.Circuit.Loader
import BrainfuckBoard.Proofs.Serial.Reception

/- The loader behind the receiver. A byte shows at the beginning of the rest of its
   stop bit, and the loader is done with it before the receiver is: `Follows` says
   where the two are, and holds whatever is on the line. So no byte finds the loader
   at work (`Follows.idle`), and it writes what it is given, in order, at one address
   after the other (`Reached.clock`). -/
namespace BrainfuckBoard

theorem Receiver.clock_rest {r : Receiver} {n : Nat} (hp : r.phase = .rest n) (hn : n < 6)
    (line ticked : Bool) :
    (r.clock line ticked).valid = false ∧
      ((r.clock line ticked).phase = .rest n ∨ (r.clock line ticked).phase = .rest (n + 1)) := by
  rw [clock_busy (by rw [hp]; exact nofun)]
  cases ticked with
  | false => exact ⟨rfl, .inl hp⟩
  | true =>
    have htick : (r.shifted line).tick r.second = { r.shifted line with phase := .rest (n + 1) } := by
      simp [tick, shifted, hp, restTicks, Nat.ne_of_lt hn]
    rw [if_pos rfl, htick]
    exact ⟨rfl, .inr rfl⟩

namespace Loader

/-- A loader that has a byte is as far behind the receiver as it has steps to go. -/
def Follows (l : Loader) (r : Receiver) : Prop :=
  match l.phase with
  | .idle => True
  | .write => r.valid = false ∧ ∃ n, n ≤ 1 ∧ r.phase = .rest n
  | .wait => r.valid = false ∧ ∃ n, n ≤ 2 ∧ r.phase = .rest n

/-- The byte that is about to be written. -/
def held (l : Loader) : List UInt8 := l.written?.toList.map Prod.snd

/-- `k` bytes have been written, from address 0 on and round the store of `depth` words. -/
def Reached (depth k : Nat) (l : Loader) : Prop :=
  match l.phase with
  | .idle | .write => l.addr.toNat = k % depth
  | .wait => (l.addr.toNat + 1) % depth = k % depth

section
variable {l : Loader} {r : Receiver} {line ticked upload : Bool} {byte? : Option UInt8} {depth k : Nat}

theorem Follows.idle (h : l.Follows r) (hv : r.valid = true) : l.phase = .idle := by
  unfold Follows at h
  split at h
  · next hp => exact hp
  · rw [h.1] at hv
    exact absurd hv (by decide)
  · rw [h.1] at hv
    exact absurd hv (by decide)

theorem follows_idle (hp : l.phase = .idle) : l.Follows r := by
  simp [Follows, hp]

/-- A byte is offered to the loader in the step in which it shows. -/
theorem Follows.clock (h : l.Follows r) (hr : r.Coherent) (hbyte : byte? ≠ none → r.valid = true) :
    (l.clock upload byte? depth).Follows (r.clock line ticked) := by
  cases upload with
  | false => exact follows_idle rfl
  | true =>
    unfold Follows at h
    split at h
    · next hp =>
      cases byte? with
      | none => exact follows_idle (by simp [Loader.clock, hp])
      | some byte =>
        have hrest := (hr.valid (hbyte nofun)).1
        obtain ⟨hv, hp'⟩ := Receiver.clock_rest hrest (by decide) line ticked
        have hwrite : (l.clock true (some byte) depth).phase = .write := by simp [Loader.clock, hp]
        simp only [Follows, hwrite]
        exact ⟨hv, hp'.elim (fun heq => ⟨0, by decide, heq⟩) fun heq => ⟨1, by decide, heq⟩⟩
    · next hp =>
      obtain ⟨-, n, hn, hrest⟩ := h
      obtain ⟨hv, hp'⟩ := Receiver.clock_rest hrest (by omega) line ticked
      have hwait : (l.clock true byte? depth).phase = .wait := by simp [Loader.clock, hp]
      simp only [Follows, hwait]
      exact ⟨hv, hp'.elim (fun heq => ⟨n, by omega, heq⟩) fun heq => ⟨n + 1, by omega, heq⟩⟩
    · next hp => exact follows_idle (by simp [Loader.clock, hp])

/-- A step in upload mode: what is offered is held, what was held is written, and the
    count goes with it. -/
theorem Reached.clock (h : l.Reached depth k) (hf : l.Follows r)
    (hbyte : byte? ≠ none → r.valid = true) (hd : 0 < depth) (hd' : depth ≤ 256) :
    (l.clock true byte? depth).Reached depth (k + l.held.length) ∧
      (l.clock true byte? depth).held = byte?.toList ∧
      ∀ addr value, l.written? = some (addr, value) → addr.toNat = k % depth := by
  -- While the loader is at work no byte is shown.
  have hnone (hwork : l.phase ≠ .idle) : byte? = none := by
    apply Decidable.byContradiction
    intro hb
    exact hwork (hf.idle (hbyte hb))
  cases hp : l.phase with
  | idle =>
    simp only [Reached, hp] at h
    cases byte? with
    | none => simp [Loader.clock, hp, Reached, held, written?, writes, h]
    | some byte => simp [Loader.clock, hp, Reached, held, written?, writes, h]
  | write =>
    obtain rfl := hnone (by rw [hp]; exact nofun)
    simp only [Reached, hp] at h
    simp [Loader.clock, hp, Reached, held, written?, writes, h]
  | wait =>
    obtain rfl := hnone (by rw [hp]; exact nofun)
    simp only [Reached, hp] at h
    have hmod := Nat.mod_lt k hd
    simp [Loader.clock, hp, Reached, held, written?, writes, h]
    omega

end

end Loader

end BrainfuckBoard
