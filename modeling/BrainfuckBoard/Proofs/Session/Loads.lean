import BrainfuckBoard.Proofs.Board.Upload
import BrainfuckBoard.Proofs.Session.Conduct

/- The load commands. There are four things that a file can be rejected for (`Rejects`), and all
   of them are found before the board is touched, so the session is then what it was. A file that
   is not rejected is in the store when the command is done, if its frames fit into the budget of
   an upload (`Loaded`). Nothing that the session has done before makes a difference to that. -/
namespace BrainfuckBoard

/-! ## Files that are not loaded -/

/-- What is wrong with a file, before its words are sent. -/
inductive FileKind.Rejects : FileKind → Option Bytes → LoadError → Prop
  | cannotOpen {kind : FileKind} (h : kind ≠ .hex) : Rejects kind none .cannotOpen
  | cannotOpenHex : Rejects .hex none (.hexText .cannotOpen)
  | hexText {text : Bytes} {error : HexText.Error} (h : HexText.read text = .error error) :
      Rejects .hex (some text) (.hexText error)
  | source {text : Bytes} {error : CompileError} (h : compile text = .error error) :
      Rejects .source (some text) (.source error)
  | tooLarge {kind : FileKind} {content : Option Bytes} {words : Bytes} (h : kind.read content = .ok words)
      (hlarge : programDepth < words.length) : Rejects kind content (.tooLarge words.length)

namespace FileKind

variable {kind : FileKind} {content : Option Bytes} {error : LoadError}

theorem program_of_read {words : Bytes} (h : kind.read content = .ok words) :
    kind.program content =
      if programDepth < words.length then .error (.tooLarge words.length) else .ok words := by
  unfold program
  rw [h]
  rfl

theorem program_of_read_error (h : kind.read content = .error error) :
    kind.program content = .error error := by
  unfold program
  rw [h]
  rfl

theorem Rejects.program (h : kind.Rejects content error) : kind.program content = .error error := by
  cases h with
  | cannotOpen hkind =>
    apply program_of_read_error
    cases kind with
    | hex => exact absurd rfl hkind
    | source | raw => rfl
  | cannotOpenHex => exact program_of_read_error rfl
  | @hexText text error h =>
    apply program_of_read_error
    show (HexText.read text).mapError LoadError.hexText = .error (.hexText error)
    rw [h]
    rfl
  | @source text error h =>
    apply program_of_read_error
    show (compile text).mapError LoadError.source = .error (.source error)
    rw [h]
    rfl
  | tooLarge h hlarge => rw [program_of_read h, if_pos hlarge]

/-- A file that has no words is rejected. -/
theorem rejects_of_read_error (h : kind.read content = .error error) : kind.Rejects content error := by
  cases kind with
  | raw =>
    cases content with
    | none =>
      cases h
      exact .cannotOpen nofun
    | some words => exact absurd h nofun
  | source =>
    cases content with
    | none =>
      cases h
      exact .cannotOpen nofun
    | some text =>
      change (compile text).mapError LoadError.source = .error error at h
      cases hcompile : compile text with
      | error e =>
        rw [hcompile] at h
        cases h
        exact .source hcompile
      | ok words =>
        rw [hcompile] at h
        cases h
  | hex =>
    cases content with
    | none =>
      cases h
      exact .cannotOpenHex
    | some text =>
      change (HexText.read text).mapError LoadError.hexText = .error error at h
      cases hread : HexText.read text with
      | error e =>
        rw [hread] at h
        cases h
        exact .hexText hread
      | ok words =>
        rw [hread] at h
        cases h

theorem program_of_accepted (h : ∀ error, ¬ kind.Rejects content error) :
    ∃ words, kind.read content = .ok words ∧ words.length ≤ programDepth ∧
      kind.program content = .ok words := by
  cases hread : kind.read content with
  | error error => exact absurd (rejects_of_read_error hread) (h error)
  | ok words =>
    have hfit : ¬ programDepth < words.length := fun hlarge => h _ (.tooLarge hread hlarge)
    exact ⟨words, rfl, Nat.le_of_not_lt hfit, by rw [program_of_read hread, if_neg hfit]⟩

end FileKind

namespace Session

variable {s : Session} {kind : FileKind} {content : Option Bytes} {path : Bytes} {words : Bytes} {D : Nat}

theorem load_rejected {error : LoadError} (h : kind.Rejects content error) :
    s.load kind path content = (s, complaint kind path error) := by
  simp only [load, loadProgram, h.program]

/-! ## Files that are loaded -/

/-- The session after its board was reset and `words` were sent. -/
structure Loaded (words : Bytes) (s s' : Session) : Prop where
  program : ∀ i : Fin programDepth, s'.board.chip.core.program.peek i.val = words.getD i.val Image.stock[i]
  cpu : s'.board.cpu.phase = .idle ∧ s'.board.cpu.pc = 0 ∧ s'.board.cpu.dp = 0
  tape : ∀ addr, s'.board.chip.core.tape.peek addr = 0
  queue : s'.board.terminal.sender.queue = []
  received : s'.board.terminal.listener.received = #[]
  upload : s'.board.pins.upload = false
  breaks : s'.breaks = s.breaks

theorem Attended.configured {b : Board} (h : Attended b) (hD : 1 ≤ D)
    (hoversample : b.chip.baud.oversampleDivisor.toNat = D) (hbit : b.chip.baud.bitDivisor.toNat = 16 * D) :
    b.Configured D where
  attached := h.attached
  resetPin := h.resetPin
  pos := hD
  oversample := hoversample
  bit := hbit
  period := by
    apply UInt32.toNat_inj.mp
    rw [h.period, Board.max_two]
    omega

theorem loaded_of_ready {b : Board} (h : Board.Ready D words b) : Loaded words s { s with board := b } where
  program i := by
    rw [@Ram.peek_eq _ _ i.val i rfl]
    exact h.stored i
  cpu := by
    rw [show b.cpu = {} from h.untouched.cpu]
    exact ⟨rfl, rfl, rfl⟩
  tape addr := by
    rw [h.untouched.tape]
    exact Vector.getElem_replicate _
  queue := h.queue
  received := by rw [h.untouched.listener]
  upload := h.upload
  breaks := rfl

theorem loadProgram_of_done {b : Board} (hprogram : kind.program content = .ok words)
    (hdone : ((resetBoard b).upload words uploadBudget).1 = true) :
    loadProgram b kind content = (.ok words.length, ((resetBoard b).upload words uploadBudget).2) := by
  simp only [loadProgram, hprogram]
  split
  · next hb => rw [hb]
  · next hb =>
    rw [hb] at hdone
    exact absurd hdone Bool.false_ne_true

/-- A load command, after anything that a session can have done. -/
theorem load_rejected_or_loaded (hs : s.Reachable) (kind : FileKind) (path : Bytes) (content : Option Bytes) :
    (∀ error, kind.Rejects content error →
      s.respond (.load kind path) content = (s, complaint kind path error)) ∧
    ((∀ error, ¬ kind.Rejects content error) → ∃ words, kind.read content = .ok words ∧
      words.length ≤ programDepth ∧ ∀ D, 1 ≤ D → s.board.chip.baud.oversampleDivisor.toNat = D →
        s.board.chip.baud.bitDivisor.toNat = 16 * D →
        words.length * 11 * 16 * D + 16 * D + 8 ≤ 10000000 →
          ∃ s', s.respond (.load kind path) content =
              (s', loaded kind words.length ++ .print (Report.registers s'.board)) ∧ Loaded words s s') := by
  refine ⟨fun error h => load_rejected h, fun h => ?_⟩
  obtain ⟨words, hread, hfit, hprogram⟩ := FileKind.program_of_accepted h
  refine ⟨words, hread, hfit, fun D hD hoversample hbit hbudget => ?_⟩
  have hconfigured : s.board.Configured D := hs.attended.configured hD hoversample hbit
  have hdone : ((resetBoard s.board).upload words uploadBudget).1 = true := by
    apply Board.upload_done hconfigured hfit
    calc words.length * (10 + s.board.terminal.gap.toNat) * 16 * D + 3
      _ = words.length * 11 * 16 * D + 3 := by rw [hs.attended.gap]; rfl
      _ ≤ words.length * 11 * 16 * D + 16 * D + 8 := by omega
      _ ≤ uploadBudget := hbudget
  obtain ⟨-, hready⟩ := Board.ready_of_upload hconfigured hdone
  refine ⟨{ s with board := ((resetBoard s.board).upload words uploadBudget).2 }, ?_, loaded_of_ready hready⟩
  simp only [respond, load, loadProgram_of_done hprogram hdone]

/-- In a session whose board is in the middle of the stock program, in upload mode and with bytes on
    the wire, a file with a token that is too large and one of two words. -/
theorem load_rejected_or_loaded_running :
    let first : Session := { board := .ofConfig ⟨1843200, 115200, 10⟩ }
    let commands : List Command := [.start, .send [97, 98], .stepClock 300, .addBreak 3, .upload true]
    let s := commands.foldl (fun s command => (s.respond command none).1) first
    (s.Reachable ∧ s.board.cpu.pc = 6 ∧ s.board.cpu.cell = 65 ∧ s.breaks = [3]) ∧
      s.respond (.load .hex []) (some (Text.utf8 "41 100")) =
        (s, complaint .hex [] (.hexText (.outOfRange (Text.utf8 "100") 1))) ∧
      ∃ s', s.respond (.load .raw []) (some [193, 0]) =
        (s', loaded .raw 2 ++ .print (Report.registers s'.board)) ∧ Loaded [193, 0] s s' := by
  intro first commands s
  have hs : s.Reachable := by
    have hfirst : first.Reachable :=
      .start (show Session.start ⟨⟨1843200, 115200, 10⟩, []⟩ none = (_, some first) from rfl)
    exact ((((hfirst.respond _ _).respond _ _).respond _ _).respond _ _).respond _ _
  have hstate : s.board.cpu.pc = 6 ∧ s.board.cpu.cell = 65 ∧ s.breaks = [3] := by decide +kernel
  have hrates : s.board.chip.baud.oversampleDivisor.toNat = 1 ∧ s.board.chip.baud.bitDivisor.toNat = 16 := by
    decide +kernel
  have haccepted : ∀ error, ¬ FileKind.Rejects .raw (some [193, 0]) error := fun _ h => nomatch h.program
  have hrejected : FileKind.Rejects .hex (some (Text.utf8 "41 100"))
      (.hexText (.outOfRange (Text.utf8 "100") 1)) := .hexText rfl
  obtain ⟨words, hread, -, hloaded⟩ := (load_rejected_or_loaded hs .raw [] (some [193, 0])).2 haccepted
  cases hread
  exact ⟨⟨hs, hstate⟩, (load_rejected_or_loaded hs .hex [] _).1 _ hrejected,
    hloaded 1 (Nat.le_refl 1) hrates.1 hrates.2 (by decide)⟩

end Session

end BrainfuckBoard
