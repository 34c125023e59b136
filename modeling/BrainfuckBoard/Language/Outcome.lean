/- Runs that speak to the outside. A step of a program halts, goes on in silence,
   sends a byte, or asks for one. `Run` follows such steps and lists the bytes
   sent and received, in order. It says nothing about how long a run takes, and
   a run that never halts has all its beginnings. -/
namespace BrainfuckBoard

inductive Outcome (σ : Type)
  | halt
  | silent (next : σ)
  | output (byte : UInt8) (next : σ)
  | input (next : UInt8 → σ)

inductive Exchange
  | sent (byte : UInt8)
  | received (byte : UInt8)
deriving DecidableEq, Repr

/-- From one state to another with the given exchanges. -/
inductive Run {σ : Type} (step : σ → Outcome σ) : σ → List Exchange → σ → Prop
  | here (s : σ) : Run step s [] s
  | silent {s t u : σ} {seen : List Exchange} :
      step s = .silent t → Run step t seen u → Run step s seen u
  | output {s t u : σ} {byte : UInt8} {seen : List Exchange} :
      step s = .output byte t → Run step t seen u → Run step s (.sent byte :: seen) u
  | input {s u : σ} {next : UInt8 → σ} {byte : UInt8} {seen : List Exchange} :
      step s = .input next → Run step (next byte) seen u → Run step s (.received byte :: seen) u

theorem Run.trans {σ : Type} {step : σ → Outcome σ} {s t u : σ} {a b : List Exchange}
    (h : Run step s a t) (k : Run step t b u) : Run step s (a ++ b) u := by
  induction h with
  | here => exact k
  | silent hs _ ih => exact .silent hs (ih k)
  | output hs _ ih => exact .output hs (ih k)
  | input hs _ ih => exact .input hs (ih k)

end BrainfuckBoard
