import SeatMachine.Json.Writer
/-!
# Completions

What is reported when an attempt solves its challenge.
-/
namespace SeatMachine

/-- How an attempt was driven. -/
inductive Drive where
  /-- By single steps only. -/
  | step
  /-- By runs only. -/
  | run
  /-- By both. -/
  | mixed
deriving DecidableEq, Repr

def Drive.name : Drive → String
  | .step => "step"
  | .run => "run"
  | .mixed => "mixed"

/-- How an attempt was driven, from whether it was stepped and whether it was run. -/
def Drive.of? (stepped ran : Bool) : Option Drive :=
  match stepped, ran with
  | false, false => none
  | true, false => some .step
  | false, true => some .run
  | true, true => some .mixed

/-- The report of a solved challenge. -/
structure Completion where
  challengeId : String
  stepCount : UInt64
  instructionCount : Nat
  drive : Drive
deriving DecidableEq, Repr

namespace Completion

def toJson (c : Completion) : Json :=
  .record [("challengeId", .text c.challengeId), ("stepCount", .nat c.stepCount.toNat),
    ("instructionCount", .nat c.instructionCount), ("executionMode", .text c.drive.name)]

def write (c : Completion) : String :=
  c.toJson.compact

end Completion

end SeatMachine
