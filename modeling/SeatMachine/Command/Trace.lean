import SeatMachine.Challenge.Record
import SeatMachine.Command.Report
import SeatMachine.Machine.Step
/-!
# Traces

A trace steps a machine and shows it after every step. It stops when the program is completed, when
a step fails, or when its limit of steps is used up.
-/
namespace SeatMachine

namespace Trace

/-- One step of a trace: the instruction that was run, how the step ended, and the machine then. -/
structure Line where
  instruction : Option Instruction
  outcome : Outcome
  machine : Machine

/-- Why a trace stopped. -/
inductive Stop where
  | completed
  | failed (fault : Fault)
  | limit

/-- A machine as members of an object. -/
def machineMembers (m : Machine) : List (String × Json) :=
  [("array", Challenge.seatsToJson m.array), ("moco", .nat m.moco), ("choco", .nat m.choco),
    ("hand", Json.option (fun (v : Int64) => .int v.toInt) m.hand), ("depth", .nat m.depth),
    ("currentLine", .nat m.currentLine), ("stepCount", .nat m.stepCount.toNat)]

/-- A line as a value; the fault is left out if there is none. -/
def Line.toJson (line : Line) : Json :=
  .record
    ([("instruction", Json.option (fun i => .text (Instruction.name i)) line.instruction)] ++
      machineMembers line.machine ++ [("completed", .bool line.outcome.isCompleted)] ++
      (match line.outcome.fault? with
        | some fault => [("error", fault.toJson)]
        | none => []))

/-- Steps a machine at most `limit` times. -/
def collect : (limit : Nat) → Machine → List Line × Stop
  | 0, _ => ([], .limit)
  | limit + 1, m =>
    let result := m.step
    let line : Line := ⟨m.current?, result.1, result.2⟩
    if result.1.isCompleted then ([line], .completed)
    else match result.1.fault? with
      | some fault => ([line], .failed fault)
      | none =>
        let rest := collect limit result.2
        (line :: rest.1, rest.2)

/-- The report of a trace. A fault that only ends the attempt is no failure. -/
def report (limit : Nat) (lines : List Line) (stop : Stop) : Report :=
  let out := Report.lines (lines.map fun line => line.toJson.compact)
  match stop with
  | .completed => ⟨.success, out, ""⟩
  | .failed fault =>
    match Policy.boundary fault with
    | .soft => ⟨.success, out, ""⟩
    | .hard => ⟨.runtime, out, Report.lines ["runtime error: " ++ fault.message]⟩
  | .limit => ⟨.runtime, out, Report.lines [s!"error: step limit of {limit} reached"]⟩

end Trace

end SeatMachine
