import SeatMachine.Challenge.Basic
import SeatMachine.Ledger.Basic
/-!
# The listing of challenges

One line for each challenge, in columns: id, difficulty, budget and title, and then a mark for a
challenge that is done or locked.
-/
namespace SeatMachine.Listing

def padRight (width : Nat) (text : String) : String :=
  text ++ String.ofList (List.replicate (width - text.length) ' ')

def padLeft (width : Nat) (text : String) : String :=
  String.ofList (List.replicate (width - text.length) ' ') ++ text

/-- What is noted beside a challenge. -/
inductive Mark where
  /-- Done in this many steps at best. -/
  | doneIn (steps : UInt64)
  | done
  | locked
  | blank
deriving DecidableEq, Repr

/-- The mark of a challenge, by the ledger. -/
def mark (ledger : Ledger) (c : Challenge) : Mark :=
  match (ledger.get? c.id).bind Ledger.Entry.bestStepCount with
  | some steps => .doneIn steps
  | none =>
    if ledger.isCompleted c.id then .done
    else if c.unlocked then .blank
    else .locked

def Mark.text : Mark → String
  | .doneIn steps => s!"  done ({steps.toNat} steps)"
  | .done => "  done"
  | .locked => "  locked"
  | .blank => ""

def line (ledger : Ledger) (c : Challenge) : String :=
  let budget := match c.maxSteps with
    | some budget => toString budget.toNat
    | none => "-"
  padRight 13 c.id ++ " " ++ padRight 6 c.difficulty.label ++ " " ++ padLeft 5 budget ++ "  " ++
    c.title ++ (mark ledger c).text

end SeatMachine.Listing
