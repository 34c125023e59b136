import BrainfuckBoard.Circuit.BusEvent

/- The timeline keeps the last frames, one for each step, up to a limit; with a
   limit of 0 it keeps none. Frames are stored newest first. A list of twice the
   limit is cut back to the limit, so that recording takes constant time over
   many steps; `toList` is what counts, oldest first.
   `toList_record`: recording a frame appends it and drops what is over the
   limit from the front, so no more frames than the limit are kept
   (`length_record_le`). As long as the limit is not reached nothing is dropped
   (`last_record`). -/
namespace BrainfuckBoard

/-- The board after a step: registers, wire levels and what was on the buses. `cycle`
    numbers the step, and is taken not to wrap (fewer than 2 ^ 64 steps after a reset). -/
structure TraceFrame where
  cycle : Nat
  pc : UInt8
  dp : UInt8
  cell : UInt8
  instr : UInt8
  phase : Cpu.Phase
  tx : Bool
  rx : Bool
  events : List BusEvent
deriving DecidableEq, Repr

structure Timeline where
  limit : Nat
  newest : List TraceFrame := []
  stored : Nat := 0
  stored_eq : stored = newest.length := by rfl
deriving DecidableEq, Repr

namespace Timeline

def record (t : Timeline) (frame : TraceFrame) : Timeline :=
  if t.limit = 0 then t
  else if h : t.stored < 2 * t.limit then
    { limit := t.limit
      newest := frame :: t.newest
      stored := t.stored + 1
      stored_eq := by rw [t.stored_eq, List.length_cons] }
  else
    { limit := t.limit
      newest := frame :: t.newest.take (t.limit - 1)
      stored := min (t.limit - 1) t.stored + 1
      stored_eq := by rw [t.stored_eq, List.length_cons, List.length_take] }

/-- The last `n` frames, oldest first. -/
def last (t : Timeline) (n : Nat) : List TraceFrame := (t.newest.take (min n t.limit)).reverse

/-- All frames kept, oldest first. This is the queue that the timeline stands for: a frame
    comes in at its end, and the oldest go out at its front (`toList_record`). How the frames
    are stored cannot be told from it. -/
def toList (t : Timeline) : List TraceFrame := t.last t.limit

/-- The number of frames kept, that is the length of `toList` (`length_toList`). -/
def size (t : Timeline) : Nat := min t.limit t.stored

/-- The last `n` events of all frames kept, oldest first. -/
def lastEvents (t : Timeline) (n : Nat) : List BusEvent :=
  let events := t.toList.flatMap (·.events)
  events.drop (events.length - n)

theorem toList_empty (limit : Nat) : ({ limit } : Timeline).toList = [] := by simp [toList, last]

theorem length_toList (t : Timeline) : t.toList.length = t.size := by
  simp [toList, last, size, t.stored_eq]

/-- The last `n` of a list with one more element at its end. -/
theorem reverse_take_cons (newest : List TraceFrame) (frame : TraceFrame) (n : Nat) (h : 0 < n) :
    ((frame :: newest).take n).reverse =
      ((newest.take n).reverse ++ [frame]).drop ((newest.take n).length + 1 - n) := by
  obtain ⟨m, rfl⟩ : ∃ m, n = m + 1 := ⟨n - 1, by omega⟩
  have hk : (newest.take (m + 1)).length + 1 - (m + 1) ≤ (newest.take (m + 1)).reverse.length := by
    simp only [List.length_reverse]; omega
  rw [List.take_succ_cons, List.reverse_cons, List.drop_append_of_le_length hk, List.drop_reverse,
    List.take_take]
  congr 2
  simp only [List.length_take]
  by_cases hm : m + 1 ≤ newest.length
  · congr 1; omega
  · rw [List.take_of_length_le (by omega), List.take_of_length_le (by omega)]

theorem toList_record (t : Timeline) (frame : TraceFrame) :
    (t.record frame).toList =
      (t.toList ++ [frame]).drop ((t.toList ++ [frame]).length - t.limit) := by
  by_cases h₀ : t.limit = 0
  · simp [record, h₀, toList, last]
  · have h := reverse_take_cons t.newest frame t.limit (by omega)
    simp only [toList, last, Nat.min_self, List.length_append, List.length_reverse,
      List.length_singleton, ← h]
    by_cases h₁ : t.stored < 2 * t.limit
    · rw [record, if_neg h₀, dif_pos h₁]
    · rw [record, if_neg h₀, dif_neg h₁]
      obtain ⟨m, hm⟩ : ∃ m, t.limit = m + 1 := ⟨t.limit - 1, by omega⟩
      simp [hm, List.take_take]

theorem length_record_le (t : Timeline) (frame : TraceFrame) : (t.record frame).toList.length ≤ t.limit := by
  rw [toList_record, List.length_drop]
  omega

theorem last_record (t : Timeline) (frame : TraceFrame) {n : Nat} (h : n < t.limit) :
    (t.record frame).last (n + 1) = t.last n ++ [frame] := by
  have hlimit : t.limit ≠ 0 := Nat.ne_of_gt (Nat.zero_lt_of_lt h)
  have hn : min n t.limit = n := Nat.min_eq_left (Nat.le_of_lt h)
  have hsucc : min (n + 1) t.limit = n + 1 := Nat.min_eq_left h
  by_cases hstored : t.stored < 2 * t.limit
  · rw [record, if_neg hlimit, dif_pos hstored]
    simp only [last, hn, hsucc, List.take_succ_cons, List.reverse_cons]
  · have hkept : min n (t.limit - 1) = n := Nat.min_eq_left (Nat.le_pred_of_lt h)
    rw [record, if_neg hlimit, dif_neg hstored]
    simp only [last, hn, hsucc, List.take_succ_cons, List.reverse_cons, List.take_take, hkept]

end Timeline

end BrainfuckBoard
