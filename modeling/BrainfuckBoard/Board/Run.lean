import BrainfuckBoard.Board

/- Runs with a budget: steps until something has happened, but not more than a
   given number. The Boolean says whether it has.
   1. `stepInstruction` looks after each step whether the next instruction is
      about to be fetched or the run is over. With the last step of its budget
      it gives up without a look.
   2. `runUntilHalt` looks before each step and once more at the end.
   3. `drain` looks before each step only. It waits until the terminal has sent
      everything and the last byte has passed the receiver and the loader. -/
namespace BrainfuckBoard.Board

/-- Steps while `waiting` holds, up to `budget` of them. -/
def stepWhile (waiting : Board → Bool) : Nat → Board → Board
  | 0, b => b
  | budget + 1, b => if waiting b then stepWhile waiting budget b.step else b

/-- The processor is between instructions, or not running. -/
def atBoundary (b : Board) : Bool := b.cpu.phase == .fetch || !b.cpu.busy

/-- One step, then up to `more` until the boundary; the last is not looked at. -/
def stepToBoundary : Nat → Board → Bool × Board
  | 0, b => (false, b.step)
  | more + 1, b =>
    let b := b.step
    if b.atBoundary then (true, b) else stepToBoundary more b

/-- One instruction. A halted board stays as it is; an idle one takes one step. -/
def stepInstruction (budget : Nat) (b : Board) : Bool × Board :=
  match b.cpu.phase with
  | .halt => (false, b)
  | .idle => (true, b.step)
  | _ => stepToBoundary (budget - 1) b

def runUntilHalt (budget : Nat) (b : Board) : Bool × Board :=
  let b := stepWhile (!·.halted) budget b
  (b.halted, b)

/-- Nothing is on its way from the terminal to the board. -/
def drained (b : Board) : Bool :=
  b.terminal.sender.idle && !b.chip.receiver.busy && !b.chip.receiver.valid && !b.chip.loader.busy

def drain : Nat → Board → Bool × Board
  | 0, b => (false, b)
  | budget + 1, b => if b.drained then (true, b) else drain budget b.step

/-- Sends a program to the loader. A program that does not fit is refused, and
    the board stays as it is. The step after upload mode brings the loader back
    to address 0. -/
def upload (words : Bytes) (budget : Nat) (b : Board) : Bool × Board :=
  if programDepth < words.length then (false, b)
  else
    let (done, b) := drain budget ((b.setUpload true).send words)
    (done, (b.setUpload false).step)

/-- Steps until the terminal has received `n` bytes. -/
def waitOutput (n budget : Nat) (b : Board) : Board :=
  stepWhile (·.terminal.listener.received.size < n) budget b

/-- Steps until the transmitter is free and the terminal is not in a frame. -/
def settle (budget : Nat) (b : Board) : Board :=
  stepWhile (fun b => b.chip.transmitter.busy || !b.terminal.listener.idle) budget b

end BrainfuckBoard.Board
