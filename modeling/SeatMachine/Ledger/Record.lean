import SeatMachine.Json.Fields
import SeatMachine.Json.Reader
import SeatMachine.Json.Writer
import SeatMachine.Ledger.Basic
/-!
# Ledger files

In JSON a ledger is an object from ids to entries; if an id is repeated, the last entry counts. An
entry is an object, of which unknown fields are skipped, or the list of its fields in order. What
an entry does not know is left out.
-/
namespace SeatMachine.Ledger

namespace Entry

/-- A field that is left out if it is not known. -/
def optionalField (name : String) : Option UInt64 → List (String × Json)
  | none => []
  | some n => [(name, .nat n.toNat)]

def toJson (e : Entry) : Json :=
  .record ([("challengeId", .text e.challengeId), ("completed", .bool e.completed)] ++
    optionalField "bestStepCount" e.bestStepCount ++ optionalField "completedAt" e.completedAt)

def ofMembers? (members : List (Option String × Json)) : Option Entry :=
  if Json.areNamed members then do
    let challengeId ← (Json.field? "challengeId" members).bind Json.toText?
    let completed ← (Json.field? "completed" members).bind Json.toBool?
    let bestStepCount ← Json.fieldOr? "bestStepCount" none (Json.toOption? Json.toUInt64?) members
    let completedAt ← Json.fieldOr? "completedAt" none (Json.toOption? Json.toUInt64?) members
    return { challengeId, completed, bestStepCount, completedAt }
  else none

/-- The step count and the time at the end of an entry in list form. -/
def ending? : List Json → Option (Option UInt64 × Option UInt64)
  | [] => some (none, none)
  | [best] => (best.toOption? Json.toUInt64?).map fun best => (best, none)
  | [best, time] => do
    let best ← best.toOption? Json.toUInt64?
    let time ← time.toOption? Json.toUInt64?
    return (best, time)
  | _ => none

def ofItems? : List Json → Option Entry
  | challengeId :: completed :: rest => do
    let challengeId ← challengeId.toText?
    let completed ← completed.toBool?
    let (bestStepCount, completedAt) ← ending? rest
    return { challengeId, completed, bestStepCount, completedAt }
  | _ => none

def ofJson? : Json → Option Entry
  | .object members => ofMembers? members
  | .array items => ofItems? items
  | _ => none

end Entry

def toJson (l : Ledger) : Json :=
  .record (l.entries.map fun (id, entry) => (id, entry.toJson))

/-- Adds the entries of members, one after the other. -/
def addMembers? (l : Ledger) : List (Option String × Json) → Option Ledger
  | [] => some l
  | (name, value) :: members => do
    let id ← name
    let entry ← Entry.ofJson? value
    addMembers? (l.insert id entry) members

def ofJson? : Json → Option Ledger
  | .object members => addMembers? empty members
  | _ => none

/-- The text of a ledger on one line. -/
def writeCompact (l : Ledger) : String :=
  l.toJson.compact

def write (l : Ledger) : String :=
  l.toJson.indented

def read? (text : String) : Option Ledger :=
  (Json.parse? text).bind ofJson?

end SeatMachine.Ledger
