import SeatMachine.Challenge.Basic
import SeatMachine.Machine.Basic
/-!
# Verdicts

A verdict compares the row of seats with the target of a challenge. Different lengths are reported
first, then the first seat that differs. A solved challenge is optimized if it kept within its
budget; no budget, or a budget of zero, is always kept.
-/
namespace SeatMachine

/-- What comparing a row with its target shows. -/
inductive Finding where
  | lengthMismatch (expected actual : Nat)
  | seatMismatch (seat : Nat) (expected actual : Int64)
  | solved (optimized : Bool)
deriving DecidableEq, Repr

/-- A finding, and the number of steps it took. -/
structure Verdict where
  finding : Finding
  stepCount : UInt64
deriving DecidableEq, Repr

namespace Verdict

def success (v : Verdict) : Bool :=
  match v.finding with
  | .solved _ => true
  | _ => false

/-- The challenge is solved within its budget. -/
def optimized (v : Verdict) : Bool :=
  match v.finding with
  | .solved optimized => optimized
  | _ => false

def message (v : Verdict) : String :=
  match v.finding with
  | .lengthMismatch expected actual =>
    s!"Array length mismatch: expected {expected}, got {actual}"
  | .seatMismatch seat expected actual =>
    s!"Mismatch at seat {seat}: expected {expected.toInt}, got {actual.toInt}"
  | .solved true => "Challenge completed optimally!"
  | .solved false => "Challenge completed! Try to optimize your solution."

def toJson (v : Verdict) : Json :=
  .record [("success", .bool v.success), ("message", .text v.message),
    ("stepCount", .nat v.stepCount.toNat), ("optimized", .bool v.optimized)]

end Verdict

/-- The first place where two rows differ, with both values. -/
def firstDifference? : List Int64 → List Int64 → Option (Nat × Int64 × Int64)
  | want :: target, got :: actual =>
    if want = got then
      (firstDifference? target actual).map fun (seat, want, got) => (seat + 1, want, got)
    else some (0, want, got)
  | _, _ => none

namespace Challenge

/-- The number of steps keeps within the budget. -/
def isWithinBudget (c : Challenge) (stepCount : UInt64) : Bool :=
  match c.maxSteps with
  | none => true
  | some budget => budget == 0 || decide (stepCount ≤ budget)

def judge (c : Challenge) (s : Snapshot) : Verdict where
  stepCount := s.stepCount
  finding :=
    if s.array.length ≠ c.targetArray.length then
      .lengthMismatch c.targetArray.length s.array.length
    else match firstDifference? c.targetArray s.array with
      | some (seat, want, got) => .seatMismatch seat want got
      | none => .solved (c.isWithinBudget s.stepCount)

end Challenge

end SeatMachine
