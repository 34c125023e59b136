import BrainfuckBoard.Proofs.Processor.Tracking

/- Whole instructions. The processor is at a boundary when it is about to fetch a
   word, and when it has halted. Between two boundaries it carries out exactly one
   instruction (`run_executes`), in a number of steps that is fixed but for the two
   waits: `Executes` says when a byte is sent or taken, and that nothing else is sent
   in the meantime. -/
namespace BrainfuckBoard.Core

/-- `n` steps with the given inputs. -/
def run (c : Core) (inputs : Nat → Inputs) : Nat → Core
  | 0 => c
  | n + 1 => (c.run inputs n).clock (inputs n)

def AtBoundary (c : Core) : Prop := c.cpu.phase = .fetch ∨ c.cpu.phase = .halt

section
variable (c : Core) (inputs : Nat → Inputs)

/-- What the processor asks for in step `k`. -/
def asked (k : Nat) : Cpu.Requests := (c.run inputs k).requests (inputs k)

/-- From step `n` on and before step `m` nothing is sent and the tape is not written. -/
def QuietFrom (n m : Nat) : Prop := ∀ k, n ≤ k → k < m → (c.run inputs k).Quiet (inputs k)

/-- There is no boundary after `n` and before `m`. -/
def Unbroken (n m : Nat) : Prop := ∀ k, n < k → k < m → ¬ (c.run inputs k).AtBoundary

/-- The first boundary after `n` is at `m`, in the given phase and state. -/
structure Returns (n m : Nat) (phase : Cpu.Phase) (s : Word.State) : Prop where
  later : n < m
  unbroken : Unbroken c inputs n m
  phase : (c.run inputs m).cpu.phase = phase
  shows : (c.run inputs m).Shows s

/-- The instruction fetched in step `n`, in state `s`, by what it does.
    `.` is executed five steps later, and sends in the first step from then on in which
    the transmitter is free; `,` is executed after three steps, and takes the byte of
    the first step from then on in which one arrives. -/
def Executes (n : Nat) (s : Word.State) : Outcome Word.State → Prop
  | .halt => QuietFrom c inputs n (n + 3) ∧ Returns c inputs n (n + 3) .halt s
  | .silent t => ∃ m, Returns c inputs n m .fetch t ∧
      ∀ k, n ≤ k → k < m → (asked c inputs k).send = none
  | .output byte t => (c.run inputs (n + 5)).cpu.phase = .execute ∧
      ∀ k, n + 5 ≤ k → (∀ j, n + 5 ≤ j → j < k → (inputs j).sending = true) →
        QuietFrom c inputs n k ∧ Unbroken c inputs n (k + 1) ∧
        if (inputs k).sending then (asked c inputs k).send = none
        else (asked c inputs k).send = some byte ∧ Returns c inputs n (k + 1) .fetch t
  | .input next => (c.run inputs (n + 3)).cpu.phase = .execute ∧
      ∀ k, n + 3 ≤ k → (∀ j, n + 3 ≤ j → j < k → (inputs j).received = none) →
        QuietFrom c inputs n k ∧ Unbroken c inputs n (k + 1) ∧
        match (inputs k).received with
        | none => (asked c inputs k).tapeWrite = none
        | some byte => (asked c inputs k).tapeWrite = some ((c.run inputs n).cpu.dp, byte) ∧
          (asked c inputs k).send = none ∧ (c.run inputs (k + 1)).Quiet (inputs (k + 1)) ∧
          Returns c inputs n (k + 2) .fetch (next byte)

/-- At the end of an instruction the processor is in the state that the instruction
    leads to, about to fetch the next one; a halt leaves the state as it was. -/
def Yields (s : Word.State) : Outcome Word.State → Cpu.Phase → Word.State → Prop
  | .halt, phase, t => phase = .halt ∧ t = s
  | .silent u, phase, t => phase = .fetch ∧ t = u
  | .output _ u, phase, t => phase = .fetch ∧ t = u
  | .input next, phase, t => phase = .fetch ∧ ∃ byte, t = next byte

/-- About to fetch, at the beginning of a step. The other registers and the outputs
    of the memories may hold anything. -/
structure Fetching : Prop where
  phase : c.cpu.phase = .fetch
  pc : c.cpu.pc.toNat < 32
  dp : c.cpu.dp.toNat < 16
  program_settled : c.program.Settled
  tape_settled : c.tape.Settled

/-- The instruction that was fetched in step `n` is under way in step `k`. -/
structure Underway (store : Vector Word 32) (n k : Nat) (s : Word.State) (phase : Cpu.Phase) : Prop where
  tracks : Tracks store (c.run inputs k) s
  phase : (c.run inputs k).cpu.phase = phase
  quiet : QuietFrom c inputs n k
  unbroken : Unbroken c inputs n (k + 1)

end

section
variable {c : Core} {inputs : Nat → Inputs} {store : Vector Word 32} {n m k : Nat}
  {s t : Word.State} {phase : Cpu.Phase}

theorem Unbroken.succ (h : Unbroken c inputs n m) (hm : ¬ (c.run inputs m).AtBoundary) :
    Unbroken c inputs n (m + 1) := by
  intro k hk hkm
  rcases Nat.lt_succ_iff_lt_or_eq.mp hkm with hlt | rfl
  · exact h k hk hlt
  · exact hm

theorem QuietFrom.succ (h : QuietFrom c inputs n m) (hm : (c.run inputs m).Quiet (inputs m)) :
    QuietFrom c inputs n (m + 1) := by
  intro k hk hkm
  rcases Nat.lt_succ_iff_lt_or_eq.mp hkm with hlt | rfl
  · exact h k hk hlt
  · exact hm

theorem not_atBoundary (h : (c.run inputs m).cpu.phase = phase) (h₀ : phase ≠ .fetch)
    (h₁ : phase ≠ .halt) : ¬ (c.run inputs m).AtBoundary := by
  rintro (hp | hp)
  · exact h₀ (h.symm.trans hp)
  · exact h₁ (h.symm.trans hp)

theorem underway_start (h : Tracks store (c.run inputs n) s) (hp : (c.run inputs n).cpu.phase = .fetch) :
    Underway c inputs store n n s .fetch where
  tracks := h
  phase := hp
  quiet := fun k hk hkn => by omega
  unbroken := fun k hk hkn => by omega

/-- One more step of the instruction. -/
theorem Underway.next (h : Underway c inputs store n k s phase) {phase' : Cpu.Phase}
    (h₀ : phase' ≠ .fetch) (h₁ : phase' ≠ .halt)
    (hstep : Tracks store (c.run inputs (k + 1)) s ∧ (c.run inputs (k + 1)).cpu.phase = phase' ∧
      (c.run inputs k).Quiet (inputs k)) : Underway c inputs store n (k + 1) s phase' where
  tracks := hstep.1
  phase := hstep.2.1
  quiet := h.quiet.succ hstep.2.2
  unbroken := h.unbroken.succ (not_atBoundary hstep.2.1 h₀ h₁)

variable (hi : ∀ k, (inputs k).uploaded = none)
include hi

theorem Underway.decode (h : Underway c inputs store n n s .fetch) :
    Underway c inputs store n (n + 2) s .decode := by
  have h₁ : Underway c inputs store n (n + 1) s .waitFetch :=
    h.next (by decide) (by decide) (h.tracks.clock_fetch (hi n) h.phase)
  exact h₁.next (by decide) (by decide) (h₁.tracks.clock_waitFetch (hi (n + 1)) h₁.phase)

/-- An instruction that looks at the cell reads it first. -/
theorem Underway.execute_reads (h : Underway c inputs store n n s .fetch)
    (hhalt : (wordAt store s).isHalt = false) (hreads : (wordAt store s).opcode.readsCell = true) :
    Underway c inputs store n (n + 5) s .execute := by
  have h₂ := h.decode hi
  have hd := h₂.tracks.clock_decode (hi (n + 2)) h₂.phase
  simp only [Cpu.decoded, hhalt, hreads, Bool.false_eq_true, if_false, if_true] at hd
  have h₃ : Underway c inputs store n (n + 3) s .readCell := h₂.next (by decide) (by decide) hd
  have h₄ : Underway c inputs store n (n + 4) s .waitCell :=
    h₃.next (by decide) (by decide) (h₃.tracks.clock_readCell (hi (n + 3)) h₃.phase)
  exact h₄.next (by decide) (by decide) (h₄.tracks.clock_waitCell (hi (n + 4)) h₄.phase)

theorem Underway.execute (h : Underway c inputs store n n s .fetch)
    (hhalt : (wordAt store s).isHalt = false) (hreads : (wordAt store s).opcode.readsCell = false) :
    Underway c inputs store n (n + 3) s .execute := by
  have h₂ := h.decode hi
  have hd := h₂.tracks.clock_decode (hi (n + 2)) h₂.phase
  simp only [Cpu.decoded, hhalt, hreads, Bool.false_eq_true, if_false] at hd
  exact h₂.next (by decide) (by decide) hd

/-! ## Instruction by instruction -/

theorem executes_halt (h : Underway c inputs store n n s .fetch)
    (hhalt : (wordAt store s).isHalt = true) : Executes c inputs n s .halt := by
  have h₂ := h.decode hi
  have hd := h₂.tracks.clock_decode (hi (n + 2)) h₂.phase
  simp only [Cpu.decoded, hhalt, if_true] at hd
  exact ⟨h₂.quiet.succ hd.2.2, by omega, h₂.unbroken, hd.2.1, hd.1.shows⟩

theorem executes_silent (h : Underway c inputs store n n s .fetch)
    (hs : Word.step store s = .silent t) : Executes c inputs n s (.silent t) := by
  have hhalt : (wordAt store s).isHalt = false := isHalt_eq_false (by rw [hs]; exact nofun)
  obtain ⟨e, hne, he⟩ : ∃ e, n < e ∧ Underway c inputs store n e s .execute := by
    cases hreads : (wordAt store s).opcode.readsCell
    · exact ⟨n + 3, by omega, h.execute hi hhalt hreads⟩
    · exact ⟨n + 5, by omega, h.execute_reads hi hhalt hreads⟩
  obtain ⟨ht, hphase, hsend⟩ := he.tracks.clock_silent (hi e) he.phase hs
  have hquiet : ∀ k, n ≤ k → k < e + 1 → (asked c inputs k).send = none := by
    intro k hk hke
    rcases Nat.lt_succ_iff_lt_or_eq.mp hke with hlt | rfl
    · exact (he.quiet k hk hlt).1
    · exact hsend
  rcases hphase with hphase | hphase
  · exact ⟨e + 1, ⟨by omega, he.unbroken, hphase, ht.shows⟩, hquiet⟩
  · obtain ⟨hw, hfetch, hq⟩ := ht.clock_writeCell (hi (e + 1)) hphase
    refine ⟨e + 2, ⟨by omega, he.unbroken.succ (not_atBoundary hphase (by decide) (by decide)),
      hfetch, hw.shows⟩, ?_⟩
    intro k hk hke
    rcases Nat.lt_succ_iff_lt_or_eq.mp hke with hlt | rfl
    · exact hquiet k hk hlt
    · exact hq.1

/-- While the transmitter is busy, the byte waits. -/
theorem Underway.waits_to_send (h : Underway c inputs store n (n + 5) s .execute) {byte : UInt8}
    (hs : Word.step store s = .output byte t) : ∀ d,
    (∀ j, n + 5 ≤ j → j < n + 5 + d → (inputs j).sending = true) →
    ∃ phase, (phase = .execute ∨ phase = .waitSend) ∧ Underway c inputs store n (n + 5 + d) s phase
  | 0, _ => ⟨_, .inl rfl, h⟩
  | d + 1, hbusy => by
    obtain ⟨phase, hphase, hd⟩ :=
      Underway.waits_to_send h hs d fun j h₀ h₁ => hbusy j h₀ (by omega)
    have hp : (c.run inputs (n + 5 + d)).cpu.phase = .execute ∨
        (c.run inputs (n + 5 + d)).cpu.phase = .waitSend := by rwa [hd.phase]
    have hout := hd.tracks.clock_output (hi (n + 5 + d)) hp hs
    rw [if_pos (hbusy (n + 5 + d) (by omega) (by omega))] at hout
    exact ⟨.waitSend, .inr rfl, hd.next (by decide) (by decide) hout⟩

theorem executes_output (h : Underway c inputs store n n s .fetch) {byte : UInt8}
    (hs : Word.step store s = .output byte t) : Executes c inputs n s (.output byte t) := by
  have hhalt : (wordAt store s).isHalt = false := isHalt_eq_false (by rw [hs]; exact nofun)
  have hreads : (wordAt store s).opcode.readsCell = true := by rw [(opcode_of_output hs).1]; rfl
  have h₅ := h.execute_reads hi hhalt hreads
  refine ⟨h₅.phase, ?_⟩
  intro k hk hbusy
  obtain ⟨d, rfl⟩ := Nat.exists_eq_add_of_le hk
  obtain ⟨phase, hphase, hd⟩ := h₅.waits_to_send hi hs d hbusy
  refine ⟨hd.quiet, hd.unbroken, ?_⟩
  have hp : (c.run inputs (n + 5 + d)).cpu.phase = .execute ∨
      (c.run inputs (n + 5 + d)).cpu.phase = .waitSend := by rwa [hd.phase]
  have hout := hd.tracks.clock_output (hi (n + 5 + d)) hp hs
  split at hout
  · next hsending =>
    rw [if_pos hsending]
    exact hout.2.2.1
  · next hsending =>
    rw [if_neg hsending]
    exact ⟨hout.2.2.1, by omega, hd.unbroken, hout.2.1, hout.1.shows⟩

/-- Until a byte arrives, the instruction waits for it. -/
theorem Underway.waits_to_receive (h : Underway c inputs store n (n + 3) s .execute)
    {next : UInt8 → Word.State} (hs : Word.step store s = .input next) : ∀ d,
    (∀ j, n + 3 ≤ j → j < n + 3 + d → (inputs j).received = none) →
    ∃ phase, (phase = .execute ∨ phase = .waitReceive) ∧
      Underway c inputs store n (n + 3 + d) s phase
  | 0, _ => ⟨_, .inl rfl, h⟩
  | d + 1, hnone => by
    obtain ⟨phase, hphase, hd⟩ :=
      Underway.waits_to_receive h hs d fun j h₀ h₁ => hnone j h₀ (by omega)
    have hp : (c.run inputs (n + 3 + d)).cpu.phase = .execute ∨
        (c.run inputs (n + 3 + d)).cpu.phase = .waitReceive := by rwa [hd.phase]
    have hin := hd.tracks.clock_input (hi (n + 3 + d)) hp hs
    rw [hnone (n + 3 + d) (by omega) (by omega)] at hin
    exact ⟨.waitReceive, .inr rfl, hd.next (by decide) (by decide) hin⟩

theorem executes_input (h : Underway c inputs store n n s .fetch) {next : UInt8 → Word.State}
    (hs : Word.step store s = .input next) : Executes c inputs n s (.input next) := by
  have hhalt : (wordAt store s).isHalt = false := isHalt_eq_false (by rw [hs]; exact nofun)
  have hreads : (wordAt store s).opcode.readsCell = false := by rw [(opcode_of_input hs).1]; rfl
  have h₃ := h.execute hi hhalt hreads
  refine ⟨h₃.phase, ?_⟩
  intro k hk hnone
  obtain ⟨d, rfl⟩ := Nat.exists_eq_add_of_le hk
  obtain ⟨phase, hphase, hd⟩ := h₃.waits_to_receive hi hs d hnone
  refine ⟨hd.quiet, hd.unbroken, ?_⟩
  have hp : (c.run inputs (n + 3 + d)).cpu.phase = .execute ∨
      (c.run inputs (n + 3 + d)).cpu.phase = .waitReceive := by rwa [hd.phase]
  have hin := hd.tracks.clock_input (hi (n + 3 + d)) hp hs
  cases hr : (inputs (n + 3 + d)).received with
  | none =>
    rw [hr] at hin
    exact hin.2.2.2
  | some byte =>
    rw [hr] at hin
    obtain ⟨ht, hphase', hsend, hwrite⟩ := hin
    -- The byte is stored in the step in which it is taken; the next step only returns.
    obtain ⟨hw, hfetch, hq⟩ := ht.clock_writeCell (hi (n + 3 + d + 1)) hphase'
    have hdp : (c.run inputs (n + 3 + d)).cpu.dp = (c.run inputs n).cpu.dp :=
      UInt8.toNat_inj.mp (hd.tracks.shows.dp.trans h.tracks.shows.dp.symm)
    refine ⟨by rw [← hdp]; exact hwrite, hsend, hq, by omega, ?_, hfetch, hw.shows⟩
    exact hd.unbroken.succ (not_atBoundary hphase' (by decide) (by decide))

theorem executes (h : Underway c inputs store n n s .fetch) :
    Executes c inputs n s (Word.step store s) := by
  cases hs : Word.step store s with
  | halt =>
    apply executes_halt hi h
    cases hhalt : (wordAt store s).isHalt
    · exact absurd hs (step_ne_halt hhalt)
    · rfl
  | silent t => exact executes_silent hi h hs
  | output byte t => exact executes_output hi h hs
  | input next => exact executes_input hi h hs

/-! ## Runs -/

theorem Tracks.run (h : Tracks store c s) : ∀ n, ∃ t, Tracks store (c.run inputs n) t
  | 0 => ⟨s, h⟩
  | n + 1 => by
    obtain ⟨t, ht⟩ := Tracks.run h n
    obtain ⟨_, u, -, hu⟩ := ht.clock (hi n)
    exact ⟨u, hu⟩

theorem Tracks.run_halt (h : Tracks store (c.run inputs n) s)
    (hp : (c.run inputs n).cpu.phase = .halt) : ∀ d,
    Tracks store (c.run inputs (n + d)) s ∧ (c.run inputs (n + d)).cpu.phase = .halt
  | 0 => ⟨h, hp⟩
  | d + 1 => by
    obtain ⟨hd, hpd⟩ := Tracks.run_halt h hp d
    obtain ⟨hnext, hpnext, -⟩ := hd.clock_halt (hi (n + d)) hpd
    exact ⟨hnext, hpnext⟩

end

section
variable {c : Core} {inputs : Nat → Inputs} {n m k : Nat} {s t : Word.State} {phase : Cpu.Phase}

theorem Shows.unique (hs : c.Shows s) (ht : c.Shows t) : s = t := by
  have hpc : s.pc = t.pc := Fin.ext (hs.pc.symm.trans ht.pc)
  have hhead : s.tape.head = t.tape.head := Fin.ext (hs.dp.symm.trans ht.dp)
  have hcells : s.tape.cells = t.tape.cells := hs.cells.symm.trans ht.cells
  obtain ⟨pc, head, cells⟩ := s
  obtain ⟨pc', head', cells'⟩ := t
  simp only at hpc hhead hcells
  rw [hpc, hhead, hcells]

theorem Returns.atBoundary (h : Returns c inputs n m phase s) (hp : phase = .fetch ∨ phase = .halt) :
    (c.run inputs m).AtBoundary := by
  rcases hp with rfl | rfl
  · exact .inl h.phase
  · exact .inr h.phase

/-- There is one next boundary. -/
theorem Returns.unique {phase' : Cpu.Phase} (h : Returns c inputs n m phase s)
    (h' : Returns c inputs n k phase' t) (hp : phase = .fetch ∨ phase = .halt)
    (hp' : phase' = .fetch ∨ phase' = .halt) : phase' = phase ∧ t = s := by
  have hmk : m = k := by
    rcases Nat.lt_trichotomy m k with hlt | heq | hgt
    · exact absurd (h.atBoundary hp) (h'.unbroken m h.later hlt)
    · exact heq
    · exact absurd (h'.atBoundary hp') (h.unbroken k h'.later hgt)
  subst hmk
  exact ⟨h'.phase.symm.trans h.phase, h'.shows.unique h.shows⟩

/-- Up to `m` a condition holds throughout, or there is a first step without it. -/
theorem all_or_first (p : Nat → Prop) [DecidablePred p] (n : Nat) : ∀ m,
    (∀ j, n ≤ j → j < m → p j) ∨ ∃ k, n ≤ k ∧ k < m ∧ ¬ p k ∧ ∀ j, n ≤ j → j < k → p j
  | 0 => .inl fun j _ hj => by omega
  | m + 1 => by
    rcases all_or_first p n m with hall | ⟨k, hnk, hkm, hk, hall⟩
    · by_cases hm : n ≤ m ∧ ¬ p m
      · exact .inr ⟨m, hm.1, by omega, hm.2, hall⟩
      · left
        intro j hnj hjm
        rcases Nat.lt_succ_iff_lt_or_eq.mp hjm with hlt | rfl
        · exact hall j hnj hlt
        · apply Decidable.byContradiction
          intro hp
          exact hm ⟨hnj, hp⟩
    · exact .inr ⟨k, hnk, by omega, hk, hall⟩

/-- A wait that lasts has no boundary. -/
theorem exists_first {p : Nat → Prop} [DecidablePred p] {e : Nat}
    (hm : (c.run inputs m).AtBoundary) (hnm : n < m)
    (hwait : ∀ k, e ≤ k → (∀ j, e ≤ j → j < k → p j) → Unbroken c inputs n (k + 1)) :
    ∃ k, e ≤ k ∧ ¬ p k ∧ ∀ j, e ≤ j → j < k → p j := by
  rcases all_or_first p e (max m e) with hall | ⟨k, hek, -, hk, hall⟩
  · exact absurd hm (hwait _ (Nat.le_max_right m e) hall m hnm (by omega))
  · exact ⟨k, hek, hk, hall⟩

theorem Executes.yields {outcome : Outcome Word.State} (h : Executes c inputs n s outcome)
    (hp : phase = .fetch ∨ phase = .halt) (hm : Returns c inputs n m phase t) :
    Yields s outcome phase t := by
  cases outcome with
  | halt => exact h.2.unique hm (.inr rfl) hp
  | silent u =>
    obtain ⟨k, hk, -⟩ := h
    exact hk.unique hm (.inl rfl) hp
  | output byte u =>
    -- The wait does not go on up to the boundary, so there is a step that ends it.
    obtain ⟨k, hk, hfree, hbusy⟩ := exists_first (hm.atBoundary hp) hm.later
      fun k hk hbusy => (h.2 k hk hbusy).2.1
    have hlast := (h.2 k hk hbusy).2.2
    rw [if_neg hfree] at hlast
    exact hlast.2.unique hm (.inl rfl) hp
  | input next =>
    obtain ⟨k, hk, harrived, hnone⟩ := exists_first (hm.atBoundary hp) hm.later
      fun k hk hnone => (h.2 k hk hnone).2.1
    have hlast := (h.2 k hk hnone).2.2
    cases hr : (inputs k).received with
    | none => exact absurd hr harrived
    | some byte =>
      rw [hr] at hlast
      obtain ⟨hphase, ht⟩ := hlast.2.2.2.unique hm (.inl rfl) hp
      exact ⟨hphase, byte, ht⟩

theorem Fetching.tracks (h : c.Fetching) : ∃ s, Tracks c.program.cells c s := by
  let s : Word.State := ⟨⟨c.cpu.pc.toNat, h.pc⟩, ⟨c.cpu.dp.toNat, h.dp⟩, c.tape.cells⟩
  refine ⟨s, rfl, h.program_settled, h.tape_settled, ⟨rfl, rfl, rfl⟩, ?_⟩
  simp [Prepared, h.phase]

/-- Whatever the transmitter and the receiver do: each instruction that is fetched is
    carried out as the instruction set has it, the next boundary shows the state it
    leads to, and a halt is the end. -/
theorem run_executes (h : c.Fetching) (hi : ∀ k, (inputs k).uploaded = none) :
    (∀ n, (c.run inputs n).program.cells = c.program.cells) ∧
    (∀ n, (c.run inputs n).cpu.phase = .fetch → ∃ s, (c.run inputs n).Shows s ∧
      Executes c inputs n s (Word.step c.program.cells s) ∧
      ∀ m phase t, phase = .fetch ∨ phase = .halt → Returns c inputs n m phase t →
        Yields s (Word.step c.program.cells s) phase t) ∧
    ∀ n s d, (c.run inputs n).cpu.phase = .halt → (c.run inputs n).Shows s →
      (c.run inputs (n + d)).cpu.phase = .halt ∧ (c.run inputs (n + d)).Shows s := by
  obtain ⟨s₀, h₀⟩ := h.tracks
  refine ⟨fun n => ?_, fun n hn => ?_, fun n s d hn hs => ?_⟩
  · obtain ⟨s, hs⟩ := h₀.run hi n
    exact hs.program
  · obtain ⟨s, hs⟩ := h₀.run hi n
    have hexec := executes hi (underway_start hs hn)
    exact ⟨s, hs.shows, hexec, fun m phase t hp hm => hexec.yields hp hm⟩
  · obtain ⟨t, ht⟩ := h₀.run hi n
    obtain rfl := ht.shows.unique hs
    obtain ⟨hd, hpd⟩ := ht.run_halt hi hn d
    exact ⟨hpd, hd.shows⟩

/-- With `.,` in the store, at its last word and at the last cell of the tape, on a
    line that is busy at first. -/
theorem run_executes_wrapped :
    let c : Core :=
      { cpu := { phase := .fetch, pc := 31, dp := 15, instr := 9, cell := 7 }
        program := { cells := (Vector.replicate 32 160).set 31 128, out := 3 }
        tape := { cells := Vector.replicate 16 65, out := 1 } }
    let inputs : Nat → Inputs := fun k => { sending := k < 9 }
    (c.Fetching ∧ ∀ k, (inputs k).uploaded = none) ∧
      ∃ s, c.Shows s ∧ Executes c inputs 0 s (Word.step c.program.cells s) := by
  intro c inputs
  have hc : c.Fetching := ⟨rfl, by decide, by decide, ⟨rfl, rfl⟩, ⟨rfl, rfl⟩⟩
  have hi : ∀ k, (inputs k).uploaded = none := fun _ => rfl
  obtain ⟨s, hs, hexec, -⟩ := (run_executes hc hi).2.1 0 rfl
  exact ⟨⟨hc, hi⟩, s, hs, hexec⟩

end

end BrainfuckBoard.Core
