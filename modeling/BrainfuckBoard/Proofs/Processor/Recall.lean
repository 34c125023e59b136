import Mathlib.Data.List.Induction
import BrainfuckBoard.Proofs.Processor.Tracking

/- What a memory remembers, told from its history alone. Of the requests that are made between two
   clock edges the last write and the last read count, and the edge takes both (`lastWrite?`,
   `lastRead?`). A cell holds the value of the latest write to it that an edge has taken, or the
   word of the image it was last reset to (`Holds`). The output shows what the cell of the latest
   read that an edge has taken held right after that edge, or zero (`Puts`). Nothing older than
   the last reset counts for either. `Recalls` says all this of a memory, an operation keeps it
   (`Recalls.perform`), and so it is true of every memory (`recalls_of_run`). -/
namespace BrainfuckBoard.Ram

/-! ## Histories -/

/-- What can be done to a memory. -/
inductive Operation (depth : Nat)
  | reset (image : Vector UInt8 depth)
  | requestRead (addr : Nat)
  | requestWrite (addr : Nat) (value : UInt8)
  | clock
deriving DecidableEq, Repr

namespace Operation

variable {depth : Nat}

def isRequest : Operation depth → Bool
  | requestRead _ | requestWrite _ _ => true
  | reset _ | clock => false

def isReset : Operation depth → Bool
  | reset _ => true
  | _ => false

def read? : Operation depth → Option Nat
  | requestRead addr => some addr
  | _ => none

def write? : Operation depth → Option (Nat × UInt8)
  | requestWrite addr value => some (addr, value)
  | _ => none

theorem isReset_of_isRequest (op : Operation depth) (h : op.isRequest = true) : op.isReset = false := by
  cases op with
  | requestRead _ | requestWrite _ _ | clock => rfl
  | reset _ => exact absurd h Bool.false_ne_true

theorem ne_clock_of_isRequest (op : Operation depth) (h : op.isRequest = true) : op ≠ .clock := by
  rintro rfl
  exact absurd h Bool.false_ne_true

end Operation

variable {depth : Nat}

def perform (m : Ram depth) : Operation depth → Ram depth
  | .reset image => ofImage image m.nonempty
  | .requestRead addr => m.requestRead addr
  | .requestWrite addr value => m.requestWrite addr value
  | .clock => m.clock

def run (m : Ram depth) (ops : List (Operation depth)) : Ram depth := ops.foldl perform m

/-- The requests since the last clock edge or reset, the latest first. -/
def underWay (ops : List (Operation depth)) : List (Operation depth) :=
  ops.reverse.takeWhile (·.isRequest)

def lastRead? (ops : List (Operation depth)) : Option Nat := (underWay ops).findSome? (·.read?)

def lastWrite? (ops : List (Operation depth)) : Option (Nat × UInt8) :=
  (underWay ops).findSome? (·.write?)

def NoReset (ops : List (Operation depth)) : Prop := ∀ op ∈ ops, op.isReset = false

/-- No edge among these operations takes a write to the cell. -/
def Spares (i : Fin depth) (ops : List (Operation depth)) : Prop :=
  ∀ earlier later addr value, ops = earlier ++ .clock :: later →
    lastWrite? earlier = some (addr, value) → addr % depth ≠ i

/-- No edge among these operations takes a read. -/
def Unread (ops : List (Operation depth)) : Prop :=
  ∀ earlier later, ops = earlier ++ .clock :: later → lastRead? earlier = none

/-- The cell `i` holds `value` after `ops`, in a memory that starts with `image`. -/
inductive Holds (image : Vector UInt8 depth) (i : Fin depth) (ops : List (Operation depth)) :
    UInt8 → Prop
  | written {earlier later : List (Operation depth)} {addr : Nat} {value : UInt8}
      (hops : ops = earlier ++ .clock :: later) (hwrite : lastWrite? earlier = some (addr, value))
      (haddr : addr % depth = i) (hreset : NoReset later) (hspared : Spares i later) :
      Holds image i ops value
  | reset {earlier later : List (Operation depth)} {image' : Vector UInt8 depth}
      (hops : ops = earlier ++ .reset image' :: later) (hreset : NoReset later)
      (hspared : Spares i later) : Holds image i ops (image'.get i)
  | first (hreset : NoReset ops) (hspared : Spares i ops) : Holds image i ops (image.get i)

/-- The output shows `value` after `ops`, in a memory that starts with `image`. -/
inductive Puts (image : Vector UInt8 depth) (ops : List (Operation depth)) : UInt8 → Prop
  | read {earlier later : List (Operation depth)} {addr : Nat} {i : Fin depth} {value : UInt8}
      (hops : ops = earlier ++ .clock :: later) (hread : lastRead? earlier = some addr)
      (haddr : addr % depth = i) (hvalue : Holds image i (earlier ++ [.clock]) value)
      (hreset : NoReset later) (hunread : Unread later) : Puts image ops value
  | reset {earlier later : List (Operation depth)} {image' : Vector UInt8 depth}
      (hops : ops = earlier ++ .reset image' :: later) (hreset : NoReset later)
      (hunread : Unread later) : Puts image ops 0
  | first (hreset : NoReset ops) (hunread : Unread ops) : Puts image ops 0

section
variable {ops earlier later : List (Operation depth)} {op mark : Operation depth}
  {image image' : Vector UInt8 depth} {i : Fin depth} {value : UInt8} {m : Ram depth}

/-! ## One more operation -/

theorem snoc_eq_iff : ops ++ [op] = earlier ++ mark :: later ↔
    (later = [] ∧ op = mark ∧ ops = earlier) ∨
      ∃ later', later = later' ++ [op] ∧ ops = earlier ++ mark :: later' := by
  rcases List.eq_nil_or_concat later with rfl | ⟨later', last, rfl⟩
  · simp [and_comm]
  · have hsnoc : earlier ++ mark :: (later'.concat last) = (earlier ++ mark :: later') ++ [last] := by
      simp
    rw [hsnoc, List.append_singleton_inj, List.concat_eq_append]
    constructor
    · rintro ⟨hops, rfl⟩
      exact .inr ⟨later', rfl, hops⟩
    · rintro (⟨hnil, -⟩ | ⟨later'', hlater, hops⟩)
      · exact absurd hnil (by simp)
      · obtain ⟨rfl, rfl⟩ := List.append_singleton_inj.mp hlater
        exact ⟨hops, rfl⟩

@[simp] theorem noReset_snoc : NoReset (ops ++ [op]) ↔ NoReset ops ∧ op.isReset = false := by
  simp [NoReset, or_imp, forall_and]

theorem underWay_snoc : underWay (ops ++ [op]) = if op.isRequest then op :: underWay ops else [] := by
  simp [underWay, List.takeWhile_cons]

/-- An edge or a reset hides the requests before it. -/
theorem underWay_append (hmark : mark.isRequest = false) :
    underWay (earlier ++ mark :: later) = underWay later := by
  induction later using List.reverseRecOn with
  | nil => simp [underWay, hmark]
  | append_singleton later op ih =>
    rw [← List.cons_append, ← List.append_assoc, underWay_snoc, underWay_snoc, ih]

theorem lastRead_append (hmark : mark.isRequest = false) :
    lastRead? (earlier ++ mark :: later) = lastRead? later := by
  rw [lastRead?, underWay_append hmark, lastRead?]

theorem lastWrite_append (hmark : mark.isRequest = false) :
    lastWrite? (earlier ++ mark :: later) = lastWrite? later := by
  rw [lastWrite?, underWay_append hmark, lastWrite?]

theorem lastRead_snoc : lastRead? (ops ++ [op]) =
    if op.isRequest then op.read?.or (lastRead? ops) else none := by
  rw [lastRead?, underWay_snoc]
  cases op <;> rfl

theorem lastWrite_snoc : lastWrite? (ops ++ [op]) =
    if op.isRequest then op.write?.or (lastWrite? ops) else none := by
  rw [lastWrite?, underWay_snoc]
  cases op <;> rfl

theorem spares_nil : Spares i [] := by
  intro earlier later addr value h
  exact absurd h (by simp)

theorem unread_nil : Unread ([] : List (Operation depth)) := by
  intro earlier later h
  exact absurd h (by simp)

theorem spares_snoc : Spares i (ops ++ [op]) ↔
    Spares i ops ∧ (op = .clock → ∀ addr value, lastWrite? ops = some (addr, value) → addr % depth ≠ i) := by
  constructor
  · intro h
    refine ⟨fun earlier later addr value hops => ?_, fun hop addr value => ?_⟩
    · exact h earlier (later ++ [op]) addr value (by rw [hops, List.append_assoc, List.cons_append])
    · exact h ops [] addr value (by rw [hop])
  · rintro ⟨hops, hop⟩ earlier later addr value hsnoc
    rcases snoc_eq_iff.mp hsnoc with ⟨-, hclock, rfl⟩ | ⟨later', -, hops'⟩
    · exact hop hclock addr value
    · exact hops earlier later' addr value hops'

theorem unread_snoc : Unread (ops ++ [op]) ↔ Unread ops ∧ (op = .clock → lastRead? ops = none) := by
  constructor
  · intro h
    refine ⟨fun earlier later hops => ?_, fun hop => ?_⟩
    · exact h earlier (later ++ [op]) (by rw [hops, List.append_assoc, List.cons_append])
    · exact h ops [] (by rw [hop])
  · rintro ⟨hops, hop⟩ earlier later hsnoc
    rcases snoc_eq_iff.mp hsnoc with ⟨-, hclock, rfl⟩ | ⟨later', -, hops'⟩
    · exact hop hclock
    · exact hops earlier later' hops'

theorem snoc_assoc (h : ops = earlier ++ mark :: later) : ops ++ [op] = earlier ++ mark :: (later ++ [op]) := by
  rw [h, List.append_assoc, List.cons_append]

/-! ## What a cell holds -/

theorem holds_nil : Holds image i [] value ↔ value = image.get i := by
  constructor
  · rintro (⟨hops⟩ | ⟨hops⟩ | _)
    · exact absurd hops (by simp)
    · exact absurd hops (by simp)
    · rfl
  · rintro rfl
    exact .first nofun spares_nil

/-- What is no reset and takes no write to the cell does not change it. -/
theorem holds_spared (hreset : op.isReset = false)
    (hspared : op = .clock → ∀ addr value, lastWrite? ops = some (addr, value) → addr % depth ≠ i) :
    Holds image i (ops ++ [op]) value ↔ Holds image i ops value := by
  constructor
  · rintro (⟨hops, hwrite, haddr, hlater, hsp⟩ | ⟨hops, hlater, hsp⟩ | ⟨hlater, hsp⟩)
    · rcases snoc_eq_iff.mp hops with ⟨-, hclock, rfl⟩ | ⟨later', rfl, hops'⟩
      · exact absurd haddr (hspared hclock _ _ hwrite)
      · exact .written hops' hwrite haddr (noReset_snoc.mp hlater).1 (spares_snoc.mp hsp).1
    · rcases snoc_eq_iff.mp hops with ⟨-, rfl, -⟩ | ⟨later', rfl, hops'⟩
      · exact absurd hreset (by simp [Operation.isReset])
      · exact .reset hops' (noReset_snoc.mp hlater).1 (spares_snoc.mp hsp).1
    · exact .first (noReset_snoc.mp hlater).1 (spares_snoc.mp hsp).1
  · rintro (⟨hops, hwrite, haddr, hlater, hsp⟩ | ⟨hops, hlater, hsp⟩ | ⟨hlater, hsp⟩)
    · refine .written (snoc_assoc hops) hwrite haddr (noReset_snoc.mpr ⟨hlater, hreset⟩) ?_
      rw [hops, lastWrite_append rfl] at hspared
      exact spares_snoc.mpr ⟨hsp, hspared⟩
    · refine .reset (snoc_assoc hops) (noReset_snoc.mpr ⟨hlater, hreset⟩) ?_
      rw [hops, lastWrite_append rfl] at hspared
      exact spares_snoc.mpr ⟨hsp, hspared⟩
    · exact .first (noReset_snoc.mpr ⟨hlater, hreset⟩) (spares_snoc.mpr ⟨hsp, hspared⟩)

theorem holds_request (hop : op.isRequest = true) :
    Holds image i (ops ++ [op]) value ↔ Holds image i ops value :=
  holds_spared (op.isReset_of_isRequest hop) fun hclock => absurd hclock (op.ne_clock_of_isRequest hop)

/-- An edge that takes a write to the cell. -/
theorem holds_written {addr : Nat} {written : UInt8} (hwrite : lastWrite? ops = some (addr, written))
    (haddr : addr % depth = i) : Holds image i (ops ++ [.clock]) value ↔ value = written := by
  constructor
  · rintro (⟨hops, hwrite', -, -, hsp⟩ | ⟨hops, -, hsp⟩ | ⟨-, hsp⟩)
    · rcases snoc_eq_iff.mp hops with ⟨-, -, rfl⟩ | ⟨later', rfl, hops'⟩
      · rw [hwrite] at hwrite'
        cases hwrite'
        rfl
      · rw [hops', lastWrite_append rfl] at hwrite
        exact absurd haddr ((spares_snoc.mp hsp).2 rfl _ _ hwrite)
    · rcases snoc_eq_iff.mp hops with ⟨-, hclock, -⟩ | ⟨later', rfl, hops'⟩
      · exact absurd hclock nofun
      · rw [hops', lastWrite_append rfl] at hwrite
        exact absurd haddr ((spares_snoc.mp hsp).2 rfl _ _ hwrite)
    · exact absurd haddr ((spares_snoc.mp hsp).2 rfl _ _ hwrite)
  · rintro rfl
    exact .written rfl hwrite haddr nofun spares_nil

theorem holds_reset : Holds image i (ops ++ [.reset image']) value ↔ value = image'.get i := by
  constructor
  · rintro (⟨hops, -, -, hlater, -⟩ | ⟨hops, hlater, -⟩ | ⟨hlater, -⟩)
    · rcases snoc_eq_iff.mp hops with ⟨-, hclock, -⟩ | ⟨later', rfl, -⟩
      · exact absurd hclock nofun
      · exact absurd (noReset_snoc.mp hlater).2 nofun
    · rcases snoc_eq_iff.mp hops with ⟨-, himage, -⟩ | ⟨later', rfl, -⟩
      · cases himage
        rfl
      · exact absurd (noReset_snoc.mp hlater).2 nofun
    · exact absurd (noReset_snoc.mp hlater).2 nofun
  · rintro rfl
    exact .reset rfl nofun spares_nil

/-! ## What the output shows -/

theorem puts_nil : Puts image [] value ↔ value = 0 := by
  constructor
  · rintro (⟨hops⟩ | ⟨hops⟩ | _)
    · exact absurd hops (by simp)
    · exact absurd hops (by simp)
    · rfl
  · rintro rfl
    exact .first nofun unread_nil

/-- What is no reset and takes no read does not change the output. -/
theorem puts_unread (hreset : op.isReset = false) (hunread : op = .clock → lastRead? ops = none) :
    Puts image (ops ++ [op]) value ↔ Puts image ops value := by
  constructor
  · rintro (⟨hops, hread, haddr, hvalue, hlater, hun⟩ | ⟨hops, hlater, hun⟩ | ⟨hlater, hun⟩)
    · rcases snoc_eq_iff.mp hops with ⟨-, hclock, rfl⟩ | ⟨later', rfl, hops'⟩
      · rw [hunread hclock] at hread
        exact absurd hread nofun
      · exact .read hops' hread haddr hvalue (noReset_snoc.mp hlater).1 (unread_snoc.mp hun).1
    · rcases snoc_eq_iff.mp hops with ⟨-, rfl, -⟩ | ⟨later', rfl, hops'⟩
      · exact absurd hreset (by simp [Operation.isReset])
      · exact .reset hops' (noReset_snoc.mp hlater).1 (unread_snoc.mp hun).1
    · exact .first (noReset_snoc.mp hlater).1 (unread_snoc.mp hun).1
  · rintro (⟨hops, hread, haddr, hvalue, hlater, hun⟩ | ⟨hops, hlater, hun⟩ | ⟨hlater, hun⟩)
    · rw [hops, lastRead_append rfl] at hunread
      exact .read (snoc_assoc hops) hread haddr hvalue (noReset_snoc.mpr ⟨hlater, hreset⟩)
        (unread_snoc.mpr ⟨hun, hunread⟩)
    · rw [hops, lastRead_append rfl] at hunread
      exact .reset (snoc_assoc hops) (noReset_snoc.mpr ⟨hlater, hreset⟩) (unread_snoc.mpr ⟨hun, hunread⟩)
    · exact .first (noReset_snoc.mpr ⟨hlater, hreset⟩) (unread_snoc.mpr ⟨hun, hunread⟩)

theorem puts_request (hop : op.isRequest = true) :
    Puts image (ops ++ [op]) value ↔ Puts image ops value :=
  puts_unread (op.isReset_of_isRequest hop) fun hclock => absurd hclock (op.ne_clock_of_isRequest hop)

/-- An edge that takes a read shows what the cell holds after the edge. -/
theorem puts_read {addr : Nat} (hread : lastRead? ops = some addr) (haddr : addr % depth = i) :
    Puts image (ops ++ [.clock]) value ↔ Holds image i (ops ++ [.clock]) value := by
  have hcontra : ∀ {later' : List (Operation depth)}, lastRead? later' = some addr →
      ¬ Unread (later' ++ [.clock]) := fun hlast hun => by
    rw [(unread_snoc.mp hun).2 rfl] at hlast
    exact absurd hlast nofun
  constructor
  · rintro (⟨hops, hread', haddr', hvalue, -, hun⟩ | ⟨hops, -, hun⟩ | ⟨-, hun⟩)
    · rcases snoc_eq_iff.mp hops with ⟨-, -, rfl⟩ | ⟨later', rfl, hops'⟩
      · rw [hread] at hread'
        cases hread'
        rwa [Fin.ext (haddr.symm.trans haddr')]
      · rw [hops', lastRead_append rfl] at hread
        exact absurd hun (hcontra hread)
    · rcases snoc_eq_iff.mp hops with ⟨-, hclock, -⟩ | ⟨later', rfl, hops'⟩
      · exact absurd hclock nofun
      · rw [hops', lastRead_append rfl] at hread
        exact absurd hun (hcontra hread)
    · exact absurd hun (hcontra hread)
  · exact fun hvalue => .read rfl hread haddr hvalue nofun unread_nil

theorem puts_reset : Puts image (ops ++ [.reset image']) value ↔ value = 0 := by
  constructor
  · rintro (⟨hops, -, -, -, hlater, -⟩ | _ | _)
    · rcases snoc_eq_iff.mp hops with ⟨-, hclock, -⟩ | ⟨later', rfl, -⟩
      · exact absurd hclock nofun
      · exact absurd (noReset_snoc.mp hlater).2 nofun
    · rfl
    · rfl
  · rintro rfl
    exact .reset rfl nofun unread_nil

/-! ## Every memory -/

/-- The memory is what its history says. -/
structure Recalls (image : Vector UInt8 depth) (ops : List (Operation depth)) (m : Ram depth) : Prop where
  contents : ∀ (i : Fin depth) value, m.cells.get i = value ↔ Holds image i ops value
  output : ∀ value, m.out = value ↔ Puts image ops value
  read : m.pendingRead = (lastRead? ops).map m.index
  write : m.pendingWrite = (lastWrite? ops).map fun (addr, value) => (m.index addr, value)

theorem recalls_ofImage (hdepth : 0 < depth) : Recalls image [] (ofImage image hdepth) where
  contents i value := by rw [holds_nil, eq_comm]; rfl
  output value := by rw [puts_nil, eq_comm]; rfl
  read := rfl
  write := rfl

theorem Recalls.requestRead (h : Recalls image ops m) (addr : Nat) :
    Recalls image (ops ++ [.requestRead addr]) (m.requestRead addr) where
  contents i value := (h.contents i value).trans (holds_request rfl).symm
  output value := (h.output value).trans (puts_request rfl).symm
  read := by rw [lastRead_snoc]; rfl
  write := by rw [lastWrite_snoc]; exact h.write

theorem Recalls.requestWrite (h : Recalls image ops m) (addr : Nat) (value : UInt8) :
    Recalls image (ops ++ [.requestWrite addr value]) (m.requestWrite addr value) where
  contents i value' := (h.contents i value').trans (holds_request rfl).symm
  output value' := (h.output value').trans (puts_request rfl).symm
  read := by rw [lastRead_snoc]; exact h.read
  write := by rw [lastWrite_snoc]; rfl

theorem Recalls.reset (m : Ram depth) : Recalls image (ops ++ [.reset image']) (ofImage image' m.nonempty) where
  contents i value := by rw [holds_reset, eq_comm]; rfl
  output value := by rw [puts_reset, eq_comm]; rfl
  read := by rw [lastRead_snoc]; rfl
  write := by rw [lastWrite_snoc]; rfl

theorem get_set {j : Nat} (hj : j < depth) : (image.set j value).get i = if j = i then value else image.get i :=
  Vector.getElem_set hj i.isLt

/-- The write first. -/
theorem Recalls.written (h : Recalls image ops m) (i : Fin depth) :
    m.written.get i = value ↔ Holds image i (ops ++ [.clock]) value := by
  unfold Ram.written
  rw [h.write]
  cases hwrite : lastWrite? ops with
  | none =>
    rw [holds_spared rfl fun _ _ _ hsome => absurd (hwrite.symm.trans hsome) nofun]
    exact h.contents i value
  | some w =>
    obtain ⟨addr, written⟩ := w
    by_cases haddr : addr % depth = i
    · rw [holds_written hwrite haddr, eq_comm]
      simp [index, get_set, haddr]
    · have hspared : ∀ addr' value', lastWrite? ops = some (addr', value') → addr' % depth ≠ i := by
        intro addr' value' hsome
        rw [hwrite] at hsome
        cases hsome
        exact haddr
      rw [holds_spared rfl fun _ => hspared, ← h.contents i value]
      simp [index, get_set, haddr]

theorem Recalls.clock (h : Recalls image ops m) : Recalls image (ops ++ [.clock]) m.clock where
  contents i value := h.written i
  output value := by
    unfold Ram.clock
    rw [h.read]
    cases hread : lastRead? ops with
    | none =>
      rw [puts_unread rfl fun _ => hread]
      exact h.output value
    | some addr =>
      have haddr : addr % depth = m.index addr := rfl
      rw [puts_read hread haddr]
      exact h.written (m.index addr)
  read := by rw [lastRead_snoc]; rfl
  write := by rw [lastWrite_snoc]; rfl

theorem Recalls.perform (h : Recalls image ops m) : ∀ op, Recalls image (ops ++ [op]) (m.perform op)
  | .reset _ => .reset m
  | .requestRead addr => h.requestRead addr
  | .requestWrite addr value => h.requestWrite addr value
  | .clock => h.clock

theorem Recalls.run (h : Recalls image ops m) (later : List (Operation depth)) :
    Recalls image (ops ++ later) (m.run later) := by
  induction later generalizing ops m with
  | nil => rwa [List.append_nil]
  | cons op later ih =>
    rw [List.append_cons]
    exact ih (h.perform op)

/-- After an edge or a reset nothing is pending. -/
theorem Recalls.settled (h : Recalls image (ops ++ [op]) m) (hop : op.isRequest = false) : m.Settled := by
  constructor
  · rw [h.read, lastRead_snoc, hop]
    rfl
  · rw [h.write, lastWrite_snoc, hop]
    rfl

/-- Whatever is done to a memory, from the image that it is made with. -/
theorem recalls_of_run (hdepth : 0 < depth) (image : Vector UInt8 depth) (ops : List (Operation depth)) :
    Recalls image ops ((ofImage image hdepth).run ops) ∧
      ∀ earlier op, ops = earlier ++ [op] → op.isRequest = false →
        ((ofImage image hdepth).run ops).Settled := by
  have hrun : Recalls image ops ((ofImage image hdepth).run ops) := (recalls_ofImage hdepth).run ops
  refine ⟨hrun, fun earlier op hops hop => ?_⟩
  rw [hops] at hrun ⊢
  exact hrun.settled hop

/-- Three cells. Two writes and two reads before one edge, of which the later ones count and meet in
    one cell; a read that a reset drops; and a write that no edge has taken yet. -/
theorem recalls_of_run_conflicts :
    let ops : List (Operation 3) := [.requestRead 5, .requestWrite 2 7, .requestWrite 4 9, .requestRead 1, .clock,
      .requestRead 0, .reset #v[4, 5, 6], .clock, .requestWrite 7 8, .requestRead 7, .clock, .requestWrite 3 1]
    let m := (ofImage #v[1, 2, 3]).run ops
    0 < 3 ∧ Recalls #v[1, 2, 3] ops m ∧ (m.cells = #v[4, 8, 6] ∧ m.out = 8 ∧ m.pendingWrite = some (0, 1)) ∧
      ((ofImage #v[1, 2, 3]).run (ops.take 5)).out = 9 ∧ ((ofImage #v[1, 2, 3]).run (ops.take 8)).out = 0 :=
  ⟨by decide, (recalls_of_run (by decide) _ _).1, by decide, by decide, by decide⟩

end

end BrainfuckBoard.Ram
