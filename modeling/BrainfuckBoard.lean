import BrainfuckBoard.Board.Operation
import BrainfuckBoard.Circuit.LinePhase
import BrainfuckBoard.Instruction.Semantics
import BrainfuckBoard.Language.Semantics
import BrainfuckBoard.Main
import BrainfuckBoard.Proofs.Language.Layout
import BrainfuckBoard.Proofs.Language.Located
import BrainfuckBoard.Proofs.Language.Translation
import BrainfuckBoard.Proofs.Processor.Execution
import BrainfuckBoard.Proofs.Serial.Oversampling
import BrainfuckBoard.Proofs.Serial.Reception
import BrainfuckBoard.Proofs.Board.Wire
import BrainfuckBoard.Proofs.Board.Loading
import BrainfuckBoard.Proofs.Board.Upload
import BrainfuckBoard.Proofs.Serial.Decoding
import BrainfuckBoard.Proofs.Serial.Transmission
import BrainfuckBoard.Proofs.Board.Driver
import BrainfuckBoard.Proofs.Board.Completion
import BrainfuckBoard.Proofs.Board.Program
import BrainfuckBoard.Proofs.Board.Course
import BrainfuckBoard.Proofs.Board.Arrivals
import BrainfuckBoard.Proofs.Board.Departures
import BrainfuckBoard.Proofs.Board.Spans
import BrainfuckBoard.Proofs.Serial.Spacing
import BrainfuckBoard.Proofs.Processor.Stock
import BrainfuckBoard.Proofs.Board.Play
import BrainfuckBoard.Proofs.Board.Pace
import BrainfuckBoard.Proofs.Board.Echo
import BrainfuckBoard.Proofs.Board.Handling
import BrainfuckBoard.Proofs.Board.FreshStart
import BrainfuckBoard.Proofs.Board.ResetPin
import BrainfuckBoard.Proofs.Processor.Latches
import BrainfuckBoard.Proofs.Serial.Ranges
import BrainfuckBoard.Proofs.Board.Soundness
import BrainfuckBoard.Proofs.Board.Deposits
import BrainfuckBoard.Proofs.Board.Protection
import BrainfuckBoard.Proofs.Board.Replay
import BrainfuckBoard.Circuit.SerialLoop
import BrainfuckBoard.Proofs.Serial.Loopback
import BrainfuckBoard.Proofs.Serial.TerminalLoop
import BrainfuckBoard.Proofs.Board.Fetching
import BrainfuckBoard.Proofs.Board.Chronicle
import BrainfuckBoard.Proofs.Session.Conduct
import BrainfuckBoard.Proofs.Session.Loads
import BrainfuckBoard.Proofs.Language.Stretches
import BrainfuckBoard.Proofs.Language.Brackets
import BrainfuckBoard.Proofs.Language.Acceptance
import BrainfuckBoard.Proofs.Language.Expansion
import BrainfuckBoard.Proofs.Serial.Ticks
import BrainfuckBoard.Proofs.Serial.Sampling
import BrainfuckBoard.Proofs.Serial.Sending
import BrainfuckBoard.Board.Downlink
import BrainfuckBoard.Proofs.Serial.Tolerance
import BrainfuckBoard.Proofs.Board.Budgets
import BrainfuckBoard.Proofs.Board.Abandoned
import BrainfuckBoard.Proofs.Session.Rates
import BrainfuckBoard.Proofs.Serial.Glitches
import BrainfuckBoard.Proofs.Processor.Recall
import BrainfuckBoard.Proofs.Session.Breakpoints
import BrainfuckBoard.Proofs.Session.Stops
import BrainfuckBoard.Proofs.Image.Tokens
import BrainfuckBoard.Proofs.Image.HexFormat
import BrainfuckBoard.Proofs.Serial.Periods
