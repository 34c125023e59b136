import BrainfuckBoard.Proofs.Board.Course

/- The wire from the terminal into the board, over a whole run. Whenever frames are
   queued, the receiver shows them in order, each once: the byte of a frame that ends
   well, and an error in the place of one whose stop bit is low. Nothing is left out when
   the terminal has sent everything and the receiver is at rest, as they are in the end if
   nothing more is queued (`Arriving.rests`), and `data` is always the last byte that was
   good (`shown_of_queued`). -/
namespace BrainfuckBoard

/-! ## The data register -/

namespace Receiver

section
variable {r : Receiver} {line ticked : Bool}

/-- The last byte that was good, before the step and after it. -/
theorem data_of_shown {bytes : Bytes} (h : r.data = bytes.getLastD 0) :
    (r.clock line ticked).data = (bytes ++ (r.clock line ticked).byte?.toList).getLastD 0 := by
  cases hv : (r.clock line ticked).valid with
  | false =>
    rw [byte?, hv, clock_data hv, h]
    simp
  | true => simp [byte?, hv]

end

end Receiver

namespace Board

section
variable {b b' : Board} {D n k : Nat} {due frames : List Frame} {before : Nat → List Operation}

theorem Wired.queues (h : Wired D b due) (hq : Queues b b' frames) (hclear : ∀ f ∈ frames, f.Clear) :
    Wired D b' (due ++ frames) :=
  h.enqueue hclear (hq.awake h.awake) hq.baud hq.receiver hq.period hq.sender

/-! ## What the receiver shows -/

/-- What the receiver has shown in the first `n` steps: bytes and, as `none`, errors. -/
def shown (b : Board) (before : Nat → List Operation) (n : Nat) : List (Option UInt8) :=
  (List.range n).flatMap fun k => (b.course before (k + 1)).chip.receiver.shown

theorem shown_succ : b.shown before (n + 1) =
    b.shown before n ++ (b.course before (n + 1)).chip.receiver.shown := by
  simp [shown, List.range_succ]

/-- After `n` steps, with `due` still on its way. -/
structure Arriving (D : Nat) (b : Board) (before : Nat → List Operation) (n : Nat) (due : List Frame) :
    Prop where
  wired : Wired D (b.course before n) due
  frames : b.shown before n ++ due.map Frame.reading = (b.queued before n).map Frame.reading
  data : (b.course before n).chip.receiver.data = ((b.shown before n).filterMap id).getLastD 0

theorem Arriving.next (h : Arriving D b before n due) (hops : ∀ op ∈ before n, op.onWire = true)
    (hclear : ∀ f ∈ (b.course before n).queuing (before n), f.Clear) :
    ∃ due', Arriving D b before (n + 1) due' := by
  have hqueues : Queues (b.course before n) (b.opening before n)
      ((b.course before n).queuing (before n)) := queues_after hops
  have hopen : Wired D (b.opening before n) (due ++ (b.course before n).queuing (before n)) :=
    h.wired.queues hqueues hclear
  obtain ⟨due', hwired, hshown, -⟩ := hopen.step
  refine ⟨due', hwired, ?_, ?_⟩
  · calc b.shown before (n + 1) ++ due'.map Frame.reading
      _ = b.shown before n ++ (due ++ (b.course before n).queuing (before n)).map Frame.reading := by
        rw [shown_succ, List.append_assoc, course_succ, hshown]
      _ = (b.queued before (n + 1)).map Frame.reading := by
        rw [List.map_append, ← List.append_assoc, h.frames, ← List.map_append, ← queued_succ]
  · have hdata : (b.opening before n).chip.receiver.data =
        ((b.shown before n).filterMap id).getLastD 0 := by rw [hqueues.receiver]; exact h.data
    rw [shown_succ, List.filterMap_append, Receiver.reduce_shown, course_succ, hopen.awake.step_chip]
    exact Receiver.data_of_shown hdata

theorem Arriving.complete (h : Arriving D b before n due)
    (hsender : (b.course before n).terminal.sender.idle = true)
    (hreceiver : (b.course before n).chip.receiver.busy = false) :
    b.shown before n = (b.queued before n).map Frame.reading := by
  have hframes := h.frames
  rwa [h.wired.idle hsender hreceiver, List.map_nil, List.append_nil] at hframes

theorem Arriving.later (h : Arriving D b before n due) (hops : ∀ k, ∀ op ∈ before k, op.onWire = true)
    (hnomore : b.QueuesNoMore before n) (hk : n ≤ k) : ∃ due', Arriving D b before k due' := by
  induction hk with
  | refl => exact ⟨due, h⟩
  | @step k hk ih =>
    obtain ⟨_, hdue⟩ := ih
    refine hdue.next (hops k) ?_
    rw [hnomore k hk]
    exact List.forall_mem_nil _

theorem Arriving.rests (h : Arriving D b before n due) (hops : ∀ k, ∀ op ∈ before k, op.onWire = true)
    (hnomore : b.QueuesNoMore before n) : ∃ m, n ≤ m ∧ ∀ k, m ≤ k →
      (b.course before k).terminal.sender.idle = true ∧ (b.course before k).chip.receiver.busy = false ∧
      b.shown before k = (b.queued before n).map Frame.reading := by
  obtain ⟨j, -, hrest⟩ := (hnomore.undisturbed hops).rests h.wired
  refine ⟨n + j, Nat.le_add_right n j, fun k hk => ?_⟩
  have hnk : n ≤ k := Nat.le_trans (Nat.le_add_right n j) hk
  obtain ⟨i, rfl⟩ := Nat.exists_eq_add_of_le hnk
  obtain ⟨hsender, hreceiver⟩ := hrest i (Nat.le_of_add_le_add_left hk)
  obtain ⟨_, hdue⟩ := h.later hops hnomore hnk
  refine ⟨hsender, hreceiver, ?_⟩
  rw [hdue.complete hsender hreceiver, hnomore.queued hnk]

/-- What has arrived after `n` steps. The frames that are queued and not shown yet are
    on their way, and there are none when the wire is at rest. It comes to rest, and stays so,
    unless more is queued. -/
structure Delivered (b : Board) (before : Nat → List Operation) (n : Nat) : Prop where
  in_order : b.shown before n <+: (b.queued before n).map Frame.reading
  complete : (b.course before n).terminal.sender.idle = true →
    (b.course before n).chip.receiver.busy = false →
    b.shown before n = (b.queued before n).map Frame.reading
  data : (b.course before n).chip.receiver.data = ((b.shown before n).filterMap id).getLastD 0
  rests : b.QueuesNoMore before n → ∃ m, n ≤ m ∧ ∀ k, m ≤ k →
    (b.course before k).terminal.sender.idle = true ∧ (b.course before k).chip.receiver.busy = false ∧
    b.shown before k = (b.queued before n).map Frame.reading

theorem Arriving.delivered (h : Arriving D b before n due) (hops : ∀ k, ∀ op ∈ before k, op.onWire = true) :
    Delivered b before n where
  in_order := ⟨due.map Frame.reading, h.frames⟩
  complete := h.complete
  data := h.data
  rests := h.rests hops

/-- From a reset on, whatever else is done to the board, at any rate of the wire. -/
theorem shown_of_queued (h : b.Configured D) (hops : ∀ k, ∀ op ∈ before k, op.onWire = true)
    (hclear : ∀ f ∈ b.reset.resetTerminal.queued before n, f.Clear) :
    Delivered b.reset.resetTerminal before n := by
  suffices harriving : ∃ due, Arriving D b.reset.resetTerminal before n due by
    obtain ⟨due, hdue⟩ := harriving
    exact hdue.delivered hops
  induction n with
  | zero => exact ⟨[], wired_reset h, rfl, rfl⟩
  | succ n ih =>
    simp only [queued_succ, List.forall_mem_append] at hclear
    obtain ⟨due, hdue⟩ := ih hclear.1
    exact hdue.next (hops n) hclear.2

/-- At 12 MHz and 115200 baud: a bad frame, a good one behind it, and one that is queued
    when the first is still on the wire. In the end an error and two bytes have been shown. -/
theorem shown_of_queued_bad_frame :
    let b := Board.ofConfig {}
    let before : Nat → List Operation := fun k =>
      if k = 0 then [.sendFrame 65 false, .send [66]] else if k = 500 then [.send [67]] else []
    (b.Configured 7 ∧ (∀ k, ∀ op ∈ before k, op.onWire = true) ∧
      ∀ f ∈ b.reset.resetTerminal.queued before 5000, f.Clear) ∧
      Delivered b.reset.resetTerminal before 5000 ∧
      ∃ m, ∀ k, m ≤ k → b.reset.resetTerminal.shown before k = [none, some 66, some 67] := by
  intro b before
  have hb : b.Configured 7 := ⟨rfl, rfl, by decide, by decide, by decide, by decide⟩
  have hops : ∀ k, ∀ op ∈ before k, op.onWire = true := by
    intro k
    dsimp only [before]
    split
    · decide
    · split <;> decide
  have hclear : ∀ f ∈ b.reset.resetTerminal.queued before 5000, f.Clear := by
    intro f hf
    obtain ⟨k, -, hk⟩ := List.mem_flatMap.mp hf
    dsimp only [before] at hk
    split at hk
    · next hzero =>
      subst hzero
      have hgap : ∀ f ∈ b.reset.resetTerminal.queuing [.sendFrame 65 false, .send [66]],
          f.stop = true ∨ 1 ≤ f.gap := by decide
      exact hgap f hk
    · split at hk
      · simp only [queuing, Operation.frames, List.map_cons, List.map_nil, List.append_nil,
          List.mem_singleton] at hk
        rw [hk]
        exact .inl rfl
      · exact absurd hk List.not_mem_nil
  have hdelivered : Delivered b.reset.resetTerminal before 5000 := shown_of_queued hb hops hclear
  have hbefore : ∀ k, k ≠ 0 → k ≠ 500 → before k = [] := by
    intro k hfirst hsecond
    dsimp only [before]
    rw [if_neg hfirst, if_neg hsecond]
  have hnomore : b.reset.resetTerminal.QueuesNoMore before 501 := by
    intro k hk
    rw [hbefore k (by omega) (by omega)]
    rfl
  have hbetween : b.reset.resetTerminal.queued before 500 = b.reset.resetTerminal.queued before 1 := by
    refine queued_eq (by decide) fun k hk hlt => ?_
    rw [hbefore k (by omega) (by omega)]
    rfl
  have hreadings : (b.reset.resetTerminal.queued before 5000).map Frame.reading =
      [none, some 66, some 67] := by
    rw [hnomore.queued (by decide), queued_succ, hbetween]
    rfl
  obtain ⟨m, -, hrest⟩ := hdelivered.rests fun k hk => hnomore k (by omega)
  refine ⟨⟨hb, hops, hclear⟩, hdelivered, m, fun k hk => ?_⟩
  rw [(hrest k hk).2.2, hreadings]

end

end Board

end BrainfuckBoard
