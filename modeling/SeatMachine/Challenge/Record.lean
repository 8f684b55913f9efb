import SeatMachine.Challenge.Basic
import SeatMachine.Json.Fields
import SeatMachine.Json.Reader
import SeatMachine.Json.Writer
import SeatMachine.LoadError
/-!
# Challenge definitions

In JSON a challenge is an object with the fields of `Challenge`, of which only the two rows are
required. Unknown fields are skipped, whatever they hold. A definition may also be the list of its
fields in order, from which the budget and the lock may be left off at the end.
-/
namespace SeatMachine

def Difficulty.ofName? (name : String) : Option Difficulty :=
  Difficulty.all.find? fun difficulty => difficulty.name == name

/-- The difficulty a value names: a string, or an object with that one member, holding null. -/
def Difficulty.ofJson? : Json → Option Difficulty
  | .string s => s.bind Difficulty.ofName?
  | .object [(name, .null)] => name.bind Difficulty.ofName?
  | _ => none

namespace Challenge

def seatsToJson (seats : List Int64) : Json :=
  .array (seats.map fun seat => .int seat.toInt)

def seatsOfJson? (j : Json) : Option (List Int64) :=
  j.toList? Json.toInt64?

/-- The definition of a challenge; an absent budget is left out. -/
def toJson (c : Challenge) : Json :=
  .record
    ([("id", .text c.id), ("title", .text c.title), ("description", .text c.description),
      ("difficulty", .text c.difficulty.name), ("initialArray", seatsToJson c.initialArray),
      ("targetArray", seatsToJson c.targetArray)] ++
      (match c.maxSteps with
        | some budget => [("maxSteps", .nat budget.toNat)]
        | none => []) ++
      [("unlocked", .bool c.unlocked)])

/-- The challenge of a definition in object form. -/
def ofMembers? (members : List (Option String × Json)) : Option Challenge :=
  if Json.areNamed members then do
    let id ← Json.fieldOr? "id" "" Json.toText? members
    let title ← Json.fieldOr? "title" "" Json.toText? members
    let description ← Json.fieldOr? "description" "" Json.toText? members
    let difficulty ← Json.fieldOr? "difficulty" .easy Difficulty.ofJson? members
    let initialArray ← (Json.field? "initialArray" members).bind seatsOfJson?
    let targetArray ← (Json.field? "targetArray" members).bind seatsOfJson?
    let maxSteps ← Json.fieldOr? "maxSteps" none (Json.toOption? Json.toUInt64?) members
    let unlocked ← Json.fieldOr? "unlocked" true Json.toBool? members
    return { id, title, description, difficulty, initialArray, targetArray, maxSteps, unlocked }
  else none

/-- The budget and the lock at the end of a definition in list form. -/
def ending? : List Json → Option (Option UInt64 × Bool)
  | [] => some (none, true)
  | [maxSteps] => (maxSteps.toOption? Json.toUInt64?).map fun maxSteps => (maxSteps, true)
  | [maxSteps, unlocked] => do
    let maxSteps ← maxSteps.toOption? Json.toUInt64?
    let unlocked ← unlocked.toBool?
    return (maxSteps, unlocked)
  | _ => none

/-- The challenge of a definition in list form. -/
def ofItems? : List Json → Option Challenge
  | id :: title :: description :: difficulty :: initialArray :: targetArray :: rest => do
    let id ← id.toText?
    let title ← title.toText?
    let description ← description.toText?
    let difficulty ← Difficulty.ofJson? difficulty
    let initialArray ← seatsOfJson? initialArray
    let targetArray ← seatsOfJson? targetArray
    let (maxSteps, unlocked) ← ending? rest
    return { id, title, description, difficulty, initialArray, targetArray, maxSteps, unlocked }
  | _ => none

def ofJson? : Json → Option Challenge
  | .object members => ofMembers? members
  | .array items => ofItems? items
  | _ => none

def write (c : Challenge) : String :=
  c.toJson.compact

def load (text : String) : Except LoadError Challenge :=
  match (Json.parse? text).bind ofJson? with
  | some c => .ok c
  | none => .error (.json .challenge)

end Challenge

end SeatMachine
