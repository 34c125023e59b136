import BrainfuckBoard.Proofs.Language.Located

/- The words of a source text run as the text does.
   `run_of_words`: what the words exchange with the outside, the code exchanges.
   `words_of_run` is the other direction. The code takes more steps than the words
   for a counted word and less for a jump back, so the words may be ahead of the
   code, by steps in silence: `Ahead`. -/
namespace BrainfuckBoard

variable {store : Vector Word 32} {words : List Word}

theorem run_of_words (hstore : Stored store words) {s u : Word.State} {seen : List Exchange}
    (h : Run (Word.step store) s seen u) : ∀ {code : Code}, Located words s.pc code →
    ∃ code', Located words u.pc code' ∧ Run Code.step (code, s.tape) seen (code', u.tape) := by
  induction h with
  | here s => exact fun hs => ⟨_, hs, .here _⟩
  | silent hstep _ ih =>
    intro code hs
    -- A silent step of the words is one of the code, or the jump back at the end of a loop.
    rcases hs.matched hstore rfl with hm | ⟨s', hback, htape, _, hs'⟩
    · rw [Matched, hstep] at hm
      generalize hc : Code.step _ = outcome at hm
      cases hm with
      | silent hd hs' =>
        obtain ⟨code', hu, hrun⟩ := ih hs'
        exact ⟨code', hu, .silent hc (hd.trans hrun)⟩
    · rw [hstep] at hback
      cases hback
      obtain ⟨code', hu, hrun⟩ := ih hs'
      exact ⟨code', hu, htape ▸ hrun⟩
  | output hstep _ ih =>
    intro code hs
    rcases hs.matched hstore rfl with hm | ⟨s', hback, _⟩
    · rw [Matched, hstep] at hm
      generalize hc : Code.step _ = outcome at hm
      cases hm with
      | output hs' =>
        obtain ⟨code', hu, hrun⟩ := ih hs'
        exact ⟨code', hu, .output hc hrun⟩
    · rw [hstep] at hback
      cases hback
  | @input s u next byte seen hstep _ ih =>
    intro code hs
    rcases hs.matched hstore rfl with hm | ⟨s', hback, _⟩
    · rw [Matched, hstep] at hm
      generalize hc : Code.step _ = outcome at hm
      cases hm with
      | input hs' =>
        obtain ⟨code', hu, hrun⟩ := ih (hs' byte)
        exact ⟨code', hu, .input hc hrun⟩
    · rw [hstep] at hback
      cases hback

/-- Jumps back come to an end: each leads to a smaller address. -/
theorem Located.matched_later (hstore : Stored store words) : ∀ (p : Nat) {s : Word.State} {code : Code},
    s.pc.val = p → Located words s.pc code →
    ∃ s', Run (Word.step store) s [] s' ∧ s'.tape = s.tape ∧ Matched store words s' code := by
  intro p
  induction p using Nat.strongRecOn with
  | ind p ih =>
    rintro s code rfl hs
    rcases hs.matched hstore rfl with hm | ⟨s', hback, htape, hlt, hs'⟩
    · exact ⟨s, .here s, rfl, hm⟩
    · obtain ⟨u, hrun, hu, hm⟩ := ih _ hlt rfl hs'
      exact ⟨u, .silent hback hrun, by rw [hu, htape], hm⟩

/-- The code gets to where the words are by steps in silence. -/
def Ahead (words : List Word) (s : Word.State) (c : Code × Tape) : Prop :=
  ∃ code, Located words s.pc code ∧ Run Code.step c [] (code, s.tape)

theorem Located.ahead {s : Word.State} {code : Code} (h : Located words s.pc code) :
    Ahead words s (code, s.tape) :=
  ⟨code, h, .here _⟩

/-- Either the words have taken the next step of the code already, or they come to
    a word that does what this step does. -/
theorem Ahead.next (hstore : Stored store words) {s : Word.State} {c : Code × Tape}
    (h : Ahead words s c) :
    (∃ d, Code.step c = .silent d ∧ Ahead words s d) ∨
      ∃ s', Run (Word.step store) s [] s' ∧ s'.tape = c.2 ∧
        Agree words s' (Word.step store s') (Code.step c) := by
  obtain ⟨code, hs, hrun⟩ := h
  cases hrun with
  | here =>
    obtain ⟨u, hu, htape, hm⟩ := hs.matched_later hstore _ rfl
    rw [Matched, htape] at hm
    exact .inr ⟨u, hu, htape, hm⟩
  | silent hstep hrest => exact .inl ⟨_, hstep, code, hs, hrest⟩

theorem words_of_run (hstore : Stored store words) {c e : Code × Tape} {seen : List Exchange}
    (h : Run Code.step c seen e) : ∀ {s : Word.State}, Ahead words s c →
    ∃ s', Run (Word.step store) s seen s' ∧ Ahead words s' e := by
  induction h with
  | here => exact fun hs => ⟨_, .here _, hs⟩
  | silent hstep _ ih =>
    intro s hs
    -- One word does a run of commands, so it may have done this one before.
    rcases hs.next hstore with ⟨d, hd, hs'⟩ | ⟨s', hrun, _, ha⟩
    · rw [hstep] at hd
      cases hd
      exact ih hs'
    · rw [hstep] at ha
      generalize hw : Word.step store s' = outcome at ha
      cases ha with
      | silent hd hs' =>
        obtain ⟨u, hu, he⟩ := ih ⟨_, hs', hd⟩
        exact ⟨u, hrun.trans (.silent hw hu), he⟩
  | output hstep _ ih =>
    intro s hs
    rcases hs.next hstore with ⟨d, hd, _⟩ | ⟨s', hrun, _, ha⟩
    · rw [hstep] at hd
      cases hd
    · rw [hstep] at ha
      generalize hw : Word.step store s' = outcome at ha
      cases ha with
      | output hs' =>
        obtain ⟨u, hu, he⟩ := ih hs'.ahead
        exact ⟨u, hrun.trans (.output hw hu), he⟩
  | @input c e next byte seen hstep _ ih =>
    intro s hs
    rcases hs.next hstore with ⟨d, hd, _⟩ | ⟨s', hrun, _, ha⟩
    · rw [hstep] at hd
      cases hd
    · rw [hstep] at ha
      generalize hw : Word.step store s' = outcome at ha
      cases ha with
      | input hs' =>
        obtain ⟨u, hu, he⟩ := ih (hs' byte).ahead
        exact ⟨u, hrun.trans (.input hw hu), he⟩

theorem halt_of_words (hstore : Stored store words) {s : Word.State} {code : Code}
    (hs : Located words s.pc code) (h : Word.step store s = .halt) :
    Code.step (code, s.tape) = .halt ∧ s.pc.val + 1 = words.length := by
  rcases hs.matched hstore rfl with hm | ⟨s', hback, _⟩
  · rw [Matched, h] at hm
    generalize hc : Code.step _ = outcome at hm
    cases hm with
    | halt hp => exact ⟨rfl, hp⟩
  · rw [h] at hback
    cases hback

theorem halt_of_run (hstore : Stored store words) {s : Word.State} {c : Code × Tape}
    (hs : Ahead words s c) (h : Code.step c = .halt) :
    ∃ s', Run (Word.step store) s [] s' ∧ Word.step store s' = .halt ∧ s'.tape = c.2 := by
  rcases hs.next hstore with ⟨d, hd, _⟩ | ⟨s', hrun, htape, ha⟩
  · rw [h] at hd
    cases hd
  · rw [h] at ha
    generalize hw : Word.step store s' = outcome at ha
    cases ha with
    | halt => exact ⟨s', hrun, hw, htape⟩

/-- The words and the code, started on the same tape, exchange the same bytes in the
    same order; one halts where the other does and leaves the same tape. The words are
    never left, and they halt at the last of them only. -/
structure RunAlike (store : Vector Word 32) (words : List Word) (code : Code) (tape : Tape) : Prop where
  exchanges : ∀ seen, (∃ s, Run (Word.step store) ⟨0, tape⟩ seen s) ↔
    ∃ c, Run Code.step (code, tape) seen c
  halts : ∀ seen last,
    (∃ s, Run (Word.step store) ⟨0, tape⟩ seen s ∧ Word.step store s = .halt ∧ s.tape = last) ↔
      ∃ c, Run Code.step (code, tape) seen c ∧ Code.step c = .halt ∧ c.2 = last
  inside : ∀ seen s, Run (Word.step store) ⟨0, tape⟩ seen s → s.pc.val < words.length
  halt_last : ∀ seen s, Run (Word.step store) ⟨0, tape⟩ seen s → Word.step store s = .halt →
    s.pc.val + 1 = words.length ∧ words[s.pc.val]? = some Word.halt

theorem runAlike_of_laid {ws : List Word} {code : Code} (hlaid : Laid code ws)
    (hstore : Stored store (ws ++ [Word.halt])) (tape : Tape) :
    RunAlike store (ws ++ [Word.halt]) code tape := by
  have hstart : Located (ws ++ [Word.halt]) (⟨0, tape⟩ : Word.State).pc code := located_start hlaid
  refine ⟨fun seen => ⟨?_, ?_⟩, fun seen last => ⟨?_, ?_⟩, ?_, ?_⟩
  · rintro ⟨s, hrun⟩
    obtain ⟨code', _, hc⟩ := run_of_words hstore hrun hstart
    exact ⟨_, hc⟩
  · rintro ⟨c, hrun⟩
    obtain ⟨s, hs, _⟩ := words_of_run hstore hrun hstart.ahead
    exact ⟨s, hs⟩
  · rintro ⟨s, hrun, hhalt, rfl⟩
    obtain ⟨code', hs, hc⟩ := run_of_words hstore hrun hstart
    exact ⟨_, hc, (halt_of_words hstore hs hhalt).1, rfl⟩
  · rintro ⟨c, hrun, hhalt, rfl⟩
    obtain ⟨s, hs, hc⟩ := words_of_run hstore hrun hstart.ahead
    obtain ⟨u, hu, hw, htape⟩ := halt_of_run hstore hc hhalt
    have hall := hs.trans hu
    rw [List.append_nil] at hall
    exact ⟨u, hall, hw, htape⟩
  · intro seen s hrun
    obtain ⟨code', hs, _⟩ := run_of_words hstore hrun hstart
    exact hs.lt_length
  · intro seen s hrun hhalt
    obtain ⟨code', hs, _⟩ := run_of_words hstore hrun hstart
    have hlast := (halt_of_words hstore hs hhalt).2
    have hpc : s.pc.val = ws.length := by simpa using hlast
    exact ⟨hlast, by simp [hpc]⟩

/-- What a source text means is what its words do, whatever the store holds after
    them and whatever the tape holds at the start. -/
theorem compile_runAlike {source : Bytes} {words : List Word} {store : Vector Word 32}
    (h : compile source = .ok words) (hstore : Stored store words) (tape : Tape) :
    ∃ code, Code.ofSource? source = some code ∧ RunAlike store words code tape := by
  obtain ⟨code, ws, hcode, hlaid, rfl⟩ := compile_laid h
  exact ⟨code, hcode, runAlike_of_laid hlaid hstore tape⟩

/-- Any filling of the store after the words will do. -/
theorem stored_ofFn {words : List Word} (h : words.length ≤ 32) (filling : Word) :
    Stored (Vector.ofFn fun i : Fin 32 => words.getD i filling) words :=
  ⟨h, fun i w hw => by simp [hw]⟩

/-- `+[.-]`, with the store filled up by a jump that would never come to an end. -/
theorem compile_runAlike_countdown :
    compile [43, 91, 46, 45, 93] = .ok [65, 196, 128, 97, 253, 0] ∧
      ∃ code, Code.ofSource? [43, 91, 46, 45, 93] = some code ∧
        RunAlike (Vector.ofFn fun i : Fin 32 => [65, 196, 128, 97, 253, 0].getD i 224)
          [65, 196, 128, 97, 253, 0] code {} :=
  ⟨rfl, compile_runAlike rfl (stored_ofFn (by decide) 224) {}⟩

end BrainfuckBoard
