import BrainfuckBoard.Proofs.Board.FreshStart
import BrainfuckBoard.Proofs.Board.Spans

/- The timeline as an observer that disturbs nothing. A chronicle has every frame since the
   last reset (`Chronicle`), and the timeline is the end of it, as long as its limit
   (`Chronicle.toList`). Boards that differ in their limit only do the same with the same
   results, and have the same chronicle (`Twins.perform`). So the limit decides how much can
   be seen of the past and nothing else (`abridged_of_limit`). -/
namespace BrainfuckBoard.Board

/-- The board with a limit of 0, and the timeline of a board that is new. -/
def untraced (b : Board) : Board :=
  { b with
    config := { b.config with traceLimit := 0 }
    timeline := (ofConfig { b.config with traceLimit := 0 }).timeline }

/-- The frame that the next step is recorded with. -/
def nextFrame (b : Board) : TraceFrame := b.traceFrame b.inReset b.step.chip

/-- All frames of a board since its last reset. -/
inductive Chronicle : Board → List TraceFrame → Prop
  | reset (b : Board) : Chronicle b.reset []
  | step {b : Board} {frames : List TraceFrame} :
      Chronicle b frames → Chronicle b.step (frames ++ [b.nextFrame])
  | handle {b : Board} {frames : List TraceFrame} {op : Operation} (h : op.live = true) :
      Chronicle b frames → Chronicle (b.perform op).2 frames

/-- No new limit is set. -/
def Operation.keepsLimit : Operation → Bool
  | .configure _ => false
  | _ => true

section
variable {a b : Board} {frames : List TraceFrame} {op : Operation} {ops : List Operation}
  {waiting : Board → Bool}

/-! ## The timeline and the chronicle -/

/-- The last `limit` elements of a list, when one more comes in at its end. -/
theorem drop_append_singleton {α : Type} (all : List α) (next : α) (limit : Nat) :
    ((all.drop (all.length - limit) ++ [next]).drop
      ((all.drop (all.length - limit) ++ [next]).length - limit)) =
      (all ++ [next]).drop ((all ++ [next]).length - limit) := by
  have hpast : all.length - limit ≤ all.length := Nat.sub_le _ _
  rw [← List.drop_append_of_le_length hpast, List.drop_drop]
  congr 1
  simp only [List.length_drop, List.length_append, List.length_singleton]
  omega

/-- What is done between two steps does not show in the timeline. -/
theorem Operation.timeline_kept (h : op.live = true) : (b.perform op).2.timeline = b.timeline ∧
    (b.perform op).2.config = b.config ∧ (b.perform op).2.cycles = b.cycles := by
  obtain ⟨pins, attached, terminal, core, hb, -, -⟩ := op.outside (b := b) h
  rw [hb]
  exact ⟨rfl, rfl, rfl⟩

theorem Chronicle.limit (h : Chronicle b frames) : b.timeline.limit = b.config.traceLimit := by
  induction h with
  | reset b => rfl
  | step _ ih => exact (limit_record _ _).trans ih
  | handle hlive _ ih =>
    obtain ⟨htimeline, hconfig, -⟩ := Operation.timeline_kept hlive
    rw [htimeline, hconfig, ih]

/-- The frames are numbered from the reset on. -/
theorem Chronicle.cycles (h : Chronicle b frames) : frames.map (·.cycle) = List.range b.cycles := by
  induction h with
  | reset b => rfl
  | @step b frames _ ih =>
    calc (frames ++ [b.nextFrame]).map (·.cycle)
      _ = List.range b.cycles ++ [b.cycles] := by rw [List.map_append, ih]; rfl
      _ = List.range b.step.cycles := List.range_succ.symm
  | handle hlive _ ih => rw [(Operation.timeline_kept hlive).2.2, ih]

theorem Chronicle.toList (h : Chronicle b frames) :
    b.timeline.toList = frames.drop (frames.length - b.config.traceLimit) := by
  induction h with
  | reset b => simp [Board.reset, Timeline.toList, Timeline.last]
  | @step b frames hb ih =>
    calc b.step.timeline.toList
      _ = (b.timeline.toList ++ [b.nextFrame]).drop
          ((b.timeline.toList ++ [b.nextFrame]).length - b.config.traceLimit) := by
        rw [← hb.limit]
        exact Timeline.toList_record _ _
      _ = _ := by
        rw [ih]
        exact drop_append_singleton _ _ _
  | handle hlive _ ih =>
    obtain ⟨htimeline, hconfig, -⟩ := Operation.timeline_kept hlive
    rw [htimeline, hconfig, ih]

/-- The timeline is the end of the frames since the last reset, as long as `limit`. -/
structure Abridged (b : Board) (limit : Nat) (frames : List TraceFrame) : Prop where
  chronicle : Chronicle b frames
  count : frames.length = b.cycles
  toList : b.timeline.toList = frames.drop (frames.length - limit)
  cycles : b.timeline.toList.map (·.cycle) = (List.range b.cycles).drop (b.cycles - limit)

theorem Chronicle.abridged (h : Chronicle b frames) : Abridged b b.config.traceLimit frames := by
  have hcount : frames.length = b.cycles := by
    rw [← List.length_map (f := (·.cycle)), h.cycles, List.length_range]
  refine ⟨h, hcount, h.toList, ?_⟩
  rw [h.toList, List.map_drop, h.cycles, hcount]

theorem Abridged.all {limit : Nat} (h : Abridged b limit frames) (hlimit : b.cycles ≤ limit) :
    b.timeline.toList = frames := by
  rw [h.toList, h.count, Nat.sub_eq_zero_of_le hlimit, List.drop_zero]

/-! ## Two boards -/

/-- Nothing but the timeline and its limit can tell the boards apart, and the frames since the
    last reset are the same. -/
structure Twins (a b : Board) : Prop where
  same : a.untraced = b.untraced
  chronicle : ∃ frames, Chronicle a frames ∧ Chronicle b frames

theorem Operation.perform_untraced (h : op.stepless = true) :
    (b.perform op).1 = none ∧ (b.untraced.perform op).2.untraced = (b.perform op).2.untraced := by
  cases op with
  | loadProgram words => simp only [perform, done, Board.loadProgram, untraced, and_self]
  | loadTape bytes => simp only [perform, done, Board.loadTape, untraced, and_self]
  | pulseRunStart | setPin _ _ | attach _ | send _ | sendFrame _ _ | reset | resetTerminal
  | setPeriod _ | setGap _ | configure _ => exact ⟨rfl, rfl⟩
  | _ => exact absurd h Bool.false_ne_true

theorem Twins.step (h : Twins a b) : Twins a.step b.step := by
  have hstep : ∀ b : Board, b.step.untraced = b.untraced.step.untraced := fun _ => rfl
  have hframe : ∀ b : Board, b.nextFrame = b.untraced.nextFrame := fun _ => rfl
  obtain ⟨frames, ha, hb⟩ := h.chronicle
  refine ⟨?_, frames ++ [a.nextFrame], ha.step, ?_⟩
  · rw [hstep a, hstep b, h.same]
  · rw [hframe a, h.same, ← hframe b]
    exact hb.step

theorem Twins.handle (h : Twins a b) (op : Operation) (hop : op.stepless = true) :
    Twins (a.perform op).2 (b.perform op).2 := by
  refine ⟨?_, ?_⟩
  · rw [← (op.perform_untraced hop).2, h.same, (op.perform_untraced hop).2]
  · rcases op.live_or_reset hop with hlive | rfl | ⟨config, rfl⟩
    · obtain ⟨frames, ha, hb⟩ := h.chronicle
      exact ⟨frames, ha.handle hlive, hb.handle hlive⟩
    · exact ⟨[], .reset a, .reset b⟩
    · exact ⟨[], .reset _, .reset _⟩

/-- A look at the board that does not see the timeline. -/
def Blind (look : Board → Bool) : Prop := ∀ b, look b = look b.untraced

theorem Twins.look (h : Twins a b) (hlook : Blind waiting) : waiting a = waiting b := by
  rw [hlook a, hlook b, h.same]

theorem Twins.steps : ∀ {n : Nat} {a b : Board}, Twins a b → Twins (steps n a) (steps n b)
  | 0, _, _, h => h
  | n + 1, _, _, h => Twins.steps (n := n) h.step

theorem Twins.stepWhile (hlook : Blind waiting) : ∀ {budget : Nat} {a b : Board}, Twins a b →
    Twins (stepWhile waiting budget a) (stepWhile waiting budget b)
  | 0, _, _, h => h
  | budget + 1, a, b, h => by
    unfold Board.stepWhile
    rw [h.look hlook]
    split
    · exact Twins.stepWhile hlook h.step
    · exact h

/-- The same result, and twins again. -/
def Agree (x y : Bool × Board) : Prop := x.1 = y.1 ∧ Twins x.2 y.2

theorem Twins.stepToBoundary : ∀ {more : Nat} {a b : Board}, Twins a b →
    Agree (stepToBoundary more a) (stepToBoundary more b)
  | 0, _, _, h => ⟨rfl, h.step⟩
  | more + 1, a, b, h => by
    have hlook : a.step.atBoundary = b.step.atBoundary := h.step.look (fun _ => rfl)
    dsimp only [Board.stepToBoundary]
    rw [hlook]
    split
    · exact ⟨rfl, h.step⟩
    · exact Twins.stepToBoundary h.step

theorem Twins.stepInstruction (h : Twins a b) (budget : Nat) :
    Agree (a.stepInstruction budget) (b.stepInstruction budget) := by
  have hcpu : a.untraced.cpu = b.untraced.cpu := congrArg cpu h.same
  change a.cpu = b.cpu at hcpu
  unfold Board.stepInstruction
  rw [hcpu]
  split
  · exact ⟨rfl, h⟩
  · exact ⟨rfl, h.step⟩
  · exact h.stepToBoundary

theorem Twins.drain : ∀ {budget : Nat} {a b : Board}, Twins a b → Agree (drain budget a) (drain budget b)
  | 0, _, _, h => ⟨rfl, h⟩
  | budget + 1, a, b, h => by
    unfold Board.drain
    rw [show a.drained = b.drained from h.look fun _ => rfl]
    split
    · exact ⟨rfl, h⟩
    · exact Twins.drain h.step

theorem Twins.upload (h : Twins a b) (words : Bytes) (budget : Nat) :
    Agree (a.upload words budget) (b.upload words budget) := by
  unfold Board.upload
  split
  · exact ⟨rfl, h⟩
  · have hmode : Twins (a.setUpload true) (b.setUpload true) := h.handle (.setPin .upload true) rfl
    have hsent := hmode.handle (.send words) rfl
    obtain ⟨hresult, hdrained⟩ : Agree (Board.drain budget _) (Board.drain budget _) := hsent.drain
    exact ⟨hresult, (hdrained.handle (.setPin .upload false) rfl).step⟩

theorem Twins.perform (h : Twins a b) (op : Operation) :
    (a.perform op).1 = (b.perform op).1 ∧ Twins (a.perform op).2 (b.perform op).2 := by
  have hlift : ∀ {x y : Bool × Board}, Agree x y →
      (x.map some id).1 = (y.map some id).1 ∧ Twins (x.map some id).2 (y.map some id).2 :=
    fun hxy => ⟨congrArg some hxy.1, hxy.2⟩
  cases op with
  | step n => exact ⟨rfl, h.steps⟩
  | stepInstruction budget => exact hlift (h.stepInstruction budget)
  | runUntilHalt budget =>
    have hrun : Twins (Board.stepWhile (!·.halted) budget a) (Board.stepWhile (!·.halted) budget b) :=
      h.stepWhile fun _ => rfl
    have hhalted : Blind halted := fun _ => rfl
    exact hlift ⟨hrun.look hhalted, hrun⟩
  | drain budget => exact hlift h.drain
  | upload words budget => exact hlift (h.upload words budget)
  | waitOutput n budget => exact ⟨rfl, h.stepWhile fun _ => rfl⟩
  | settle budget => exact ⟨rfl, h.stepWhile fun _ => rfl⟩
  | _ => exact ⟨rfl, h.handle _ rfl⟩

theorem Twins.after (h : Twins a b) (ops : List Operation) : Twins (a.after ops) (b.after ops) := by
  induction ops generalizing a b with
  | nil => exact h
  | cons op ops ih => exact ih (h.perform op).2

/-- What can be seen of a board besides its timeline, operation after operation. -/
def doings (b : Board) (ops : List Operation) : List (Option Bool × Board) :=
  (b.history ops).map fun seen => (seen.1, seen.2.untraced)

theorem Twins.doings (h : Twins a b) : a.doings ops = b.doings ops := by
  induction ops generalizing a b with
  | nil => rfl
  | cons op ops ih =>
    obtain ⟨hresult, htwins⟩ := h.perform op
    simp only [Board.doings, history, List.map_cons, hresult, htwins.same, List.cons.injEq, true_and]
    exact ih htwins

theorem twins_start (config : Config) (limit : Nat) :
    Twins (ofConfig config) (ofConfig { config with traceLimit := limit }) :=
  ⟨rfl, [], .reset _, .reset _⟩

/-! ## The limit -/

theorem limit_after (h : ∀ op ∈ ops, op.keepsLimit = true) :
    (b.after ops).config.traceLimit = b.config.traceLimit := by
  refine after_keeps (P := fun b' => b'.config.traceLimit = b.config.traceLimit) Operation.keepsLimit
    (fun _ hb => hb) ?_ (fun _ => rfl) (fun _ => rfl) rfl h
  intro b' op hop hkeeps hb
  rcases op.live_or_reset hop with hlive | rfl | ⟨config, rfl⟩
  · rw [(Operation.timeline_kept hlive).2.1]
    exact hb
  · exact hb
  · exact absurd hkeeps Bool.false_ne_true

/-- The same board with two limits, whatever is done to it but for setting another. With a
    limit no shorter than the run, `frames` is the timeline itself (`Abridged.all`). -/
theorem abridged_of_limit (config : Config) (limit : Nat) (h : ∀ op ∈ ops, op.keepsLimit = true) :
    let a := ofConfig config
    let b := ofConfig { config with traceLimit := limit }
    a.doings ops = b.doings ops ∧
      ∃ frames, Abridged (a.after ops) config.traceLimit frames ∧ Abridged (b.after ops) limit frames := by
  intro a b
  have htwins : Twins a b := twins_start config limit
  obtain ⟨frames, ha, hb⟩ := (htwins.after ops).chronicle
  have hla : (a.after ops).config.traceLimit = config.traceLimit := limit_after h
  have hlb : (b.after ops).config.traceLimit = limit := limit_after h
  exact ⟨htwins.doings, frames, hla ▸ ha.abridged, hlb ▸ hb.abridged⟩

/-- An upload, a few instructions, and a reset before them. -/
theorem abridged_of_limit_three :
    let config : Config := ⟨1843200, 115200, 1000⟩
    let ops : List Operation := [.send [7], .pulseRunStart, .step 40, .reset, .upload [0] 500,
      .pulseRunStart, .stepInstruction 20, .setPin .halt true, .runUntilHalt 20, .step 2]
    let a := ofConfig config
    let b := ofConfig { config with traceLimit := 3 }
    (∀ op ∈ ops, op.keepsLimit = true) ∧
    (a.doings ops = b.doings ops ∧ ∃ frames, Abridged (a.after ops) 1000 frames ∧
      Abridged (b.after ops) 3 frames ∧ (a.after ops).timeline.toList = frames) ∧
    (b.after ops).timeline.toList.map (·.cycle) = [(b.after ops).cycles - 3, (b.after ops).cycles - 2,
      (b.after ops).cycles - 1] := by
  intro config ops a b
  have hops : ∀ op ∈ ops, op.keepsLimit = true := by decide
  obtain ⟨hdoings, frames, ha, hb⟩ := abridged_of_limit config 3 hops
  have hcycles : (a.after ops).cycles ≤ 1000 := by decide +kernel
  exact ⟨hops, ⟨hdoings, frames, ha, hb, ha.all hcycles⟩, by decide +kernel⟩

end

end BrainfuckBoard.Board
