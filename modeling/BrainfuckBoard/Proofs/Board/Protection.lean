import BrainfuckBoard.Proofs.Board.Deposits

/- The program store while the board is not in upload mode. The loader asks for a write in
   the step after it has been given its byte, and the request stands when upload mode ends
   in between: the last byte of an upload can still be written in the first step outside of
   upload mode (`late_write`). It is the byte that was shown in the step before, and that
   step was in upload mode. But for this one write the store is only read, whatever the
   loader, the receiver and the processor are doing (`protected_of_mode`). -/
namespace BrainfuckBoard

namespace Loader

section
variable {l : Loader} {upload : Bool} {byte? : Option UInt8} {depth : Nat}

theorem written_of_write (hp : l.phase = .write) : l.written? = some (l.addr, l.data) := by
  simp [written?, writes, hp]

theorem written_of_ne_write (hp : l.phase ≠ .write) : l.written? = none := by
  simp [written?, writes, hp]

/-- A loader that is about to write has just been given its byte, in upload mode. -/
theorem given_of_write (h : (l.clock upload byte? depth).phase = .write) :
    upload = true ∧ byte? = some (l.clock upload byte? depth).data := by
  cases upload with
  | false => exact absurd h nofun
  | true =>
    cases hp : l.phase with
    | idle =>
      cases byte? with
      | none => simp [clock, hp] at h
      | some byte => simp [clock, hp]
    | write => simp [clock, hp] at h
    | wait => simp [clock, hp] at h

end

end Loader

namespace Board

section
variable {b : Board} {before : Nat → List Operation} {n : Nat}

/-! ## The loader in a step -/

/-- Outside of upload mode the loader gives up what it does. -/
theorem step_loader_idle (hrun : b.inReset = false) (hmode : b.pins.upload = false) :
    b.step.chip.loader.phase = .idle := by
  have hupload : b.drivenPins.upload = false := driven_upload.trans hmode
  rw [step_chip_of_run hrun]
  simp only [Chip.clock, Loader.clock, hupload, Bool.false_eq_true, if_false]

theorem shown_of_write (h : b.step.chip.loader.phase = .write) :
    b.inReset = false ∧ b.pins.upload = true ∧
      b.chip.receiver.byte? = some b.step.chip.loader.data := by
  cases hreset : b.inReset with
  | true =>
    have hchip : b.step.chip = b.chip.reset := by
      rw [show b.step.chip = b.nextChip b.inReset from rfl, hreset]
      rfl
    rw [hchip] at h
    exact absurd h nofun
  | false =>
    rw [step_chip_of_run hreset] at h ⊢
    obtain ⟨hupload, hbyte⟩ := Loader.given_of_write h
    exact ⟨rfl, driven_upload.symm.trans hupload, (Chip.loaderByte_of_upload hupload).symm.trans hbyte⟩

/-! ## The store in a run -/

/-- The first `n` steps are neither in upload mode nor in reset, and the store is not filled past
    the wire. -/
structure Closed (b : Board) (before : Nat → List Operation) (n : Nat) : Prop where
  spared : ∀ k, k < n → ∀ op ∈ before k, op.live = true ∧ op.sparesProgram = true
  run : ∀ k, k < n → (b.opening before k).inReset = false
  mode : ∀ k, k < n → (b.opening before k).pins.upload = false

theorem Closed.init (h : Closed b before (n + 1)) : Closed b before n where
  spared := fun k hk => h.spared k (Nat.lt_succ_of_lt hk)
  run := fun k hk => h.run k (Nat.lt_succ_of_lt hk)
  mode := fun k hk => h.mode k (Nat.lt_succ_of_lt hk)

theorem Following.step_cells_kept (h : b.Following) (hrun : b.inReset = false)
    (hp : b.chip.loader.phase ≠ .write) :
    b.step.chip.core.program.cells = b.chip.core.program.cells := by
  rw [h.step_cells hrun, Loader.written_of_ne_write hp]
  rfl

/-- A loader that is not about to write does not come to it. -/
theorem Closed.cells (h : Closed b before n) (hb : b.Reachable) (hp : b.chip.loader.phase ≠ .write) :
    (b.course before n).chip.loader.phase ≠ .write ∧
      (b.course before n).chip.core.program.cells = b.chip.core.program.cells := by
  induction n with
  | zero => exact ⟨hp, rfl⟩
  | succ n ih =>
    obtain ⟨hphase, hcells⟩ := ih h.init
    have hn := Nat.lt_succ_self n
    have hlive : ∀ op ∈ before n, op.live = true := fun op hop => (h.spared n hn op hop).1
    have hspare : ∀ op ∈ before n, op.sparesProgram = true := fun op hop => (h.spared n hn op hop).2
    have hloader : (b.opening before n).chip.loader = (b.course before n).chip.loader :=
      (spared_after hlive).loader
    have hprogram : (b.opening before n).chip.core.program = (b.course before n).chip.core.program :=
      program_after hlive hspare
    have hfollowing : (b.opening before n).Following := ((hb.course n).after _).following
    have hidle : (b.opening before n).step.chip.loader.phase = .idle :=
      step_loader_idle (h.run n hn) (h.mode n hn)
    refine ⟨?_, ?_⟩
    · rw [course_succ, hidle]
      exact nofun
    · rw [course_succ, hfollowing.step_cells_kept (h.run n hn) (hloader ▸ hphase), hprogram, hcells]

/-- What a step outside of upload mode does to the program store. -/
structure Protected (b : Board) : Prop where
  kept : b.chip.loader.phase ≠ .write →
    b.step.chip.core.program.cells = b.chip.core.program.cells
  last : b.chip.loader.phase = .write → b.step.chip.core.program.cells =
    Core.deposit b.chip.core.program.cells (b.chip.loader.addr, b.chip.loader.data)
  given : b.chip.loader.phase = .write → ∀ (a : Board) (ops : List Operation),
    (∀ op ∈ ops, op.live = true) → b = a.step.after ops →
    a.inReset = false ∧ a.pins.upload = true ∧ a.chip.receiver.byte? = some b.chip.loader.data
  afterwards : ∀ before n, Closed b.step before n →
    (b.step.course before n).chip.core.program.cells = b.step.chip.core.program.cells

/-- Whatever has been done to the board before. -/
theorem protected_of_mode (h : b.Reachable) (hrun : b.inReset = false) (hmode : b.pins.upload = false) :
    b.Protected where
  kept := h.following.step_cells_kept hrun
  last := by
    intro hp
    rw [h.following.step_cells hrun, Loader.written_of_write hp]
    rfl
  given := by
    rintro hp a ops hops rfl
    have hloader : (a.step.after ops).chip.loader = a.step.chip.loader := (spared_after hops).loader
    rw [hloader] at hp ⊢
    exact shown_of_write hp
  afterwards := by
    intro before n hclosed
    have hidle := step_loader_idle hrun hmode
    exact (hclosed.cells (h.perform (.step 1)) (by rw [hidle]; exact nofun)).2

/-! ## The end of an upload -/

/-- At sixteen steps to a bit: the byte 255 has just been given to the loader when the pin falls. -/
def interrupted : Board :=
  (ofConfig ⟨1843200, 115200, 10⟩).after
    [.setPin .upload true, .send [255], .step 156, .setPin .upload false]

/-- The processor is started in the step that writes the byte, and fetches it then. -/
theorem protected_of_mode_interrupted :
    let b := interrupted.pulseRunStart
    (b.Reachable ∧ b.inReset = false ∧ b.pins.upload = false) ∧ b.chip.loader.phase = .write ∧
      b.Protected ∧ (b.steps 3).chip.core.program.out = 255 := by
  intro b
  have hb : b.Reachable := ((Reachable.start _).after _).perform .pulseRunStart
  have hrun : b.inReset = false := by decide +kernel
  have hmode : b.pins.upload = false := by decide +kernel
  exact ⟨⟨hb, hrun, hmode⟩, by decide +kernel, protected_of_mode hb hrun hmode, by decide +kernel⟩

/-- The store is not always left alone outside of upload mode. -/
theorem late_write :
    interrupted.Reachable ∧ interrupted.inReset = false ∧ interrupted.pins.upload = false ∧
      interrupted.step.chip.core.program.cells ≠ interrupted.chip.core.program.cells := by
  refine ⟨(Reachable.start _).after _, by decide +kernel, by decide +kernel, ?_⟩
  decide +kernel

end

end Board

end BrainfuckBoard
