import SeatMachine.Json.Number
/-!
# JSON values

A value keeps everything the text says and nothing it means: members of an object stay in order
with their duplicates, and numbers stay spelled out. A string literal may hold the escape of an
unpaired surrogate; such a literal is correct syntax but denotes no text, and is kept as `none`.

`Json.depth` counts how many arrays and objects are open at once at the deepest point;
`Json.isPlain` says that every string denotes a text and every number a finite value. A document
is `Json.isAcceptable` when it is plain and at most `Json.maxDepth` deep.
-/
namespace SeatMachine

inductive Json where
  | null
  | bool (value : Bool)
  | number (literal : Json.Number)
  | string (text : Option String)
  | array (items : List Json)
  | object (members : List (Option String × Json))

namespace Json

instance : Inhabited Json :=
  ⟨.null⟩

def text (s : String) : Json :=
  .string (some s)

def int (i : Int) : Json :=
  .number (.ofInt i)

def nat (n : Nat) : Json :=
  .int n

/-- The value, or null if there is none. -/
def option {α : Type} (f : α → Json) : Option α → Json
  | none => .null
  | some a => f a

/-- An object from named members. -/
def record (members : List (String × Json)) : Json :=
  .object (members.map fun m => (some m.1, m.2))

/-! ## Depth -/

mutual

/-- The greatest number of arrays and objects that are open at once. -/
def depth : Json → Nat
  | .array items => 1 + itemsDepth items
  | .object members => 1 + membersDepth members
  | _ => 0
termination_by structural j => j

def itemsDepth : List Json → Nat
  | [] => 0
  | item :: items => max item.depth (itemsDepth items)
termination_by structural items => items

def membersDepth : List (Option String × Json) → Nat
  | [] => 0
  | (_, value) :: members => max value.depth (membersDepth members)
termination_by structural members => members

end

/-- How many arrays and objects a document may have open at once. -/
def maxDepth : Nat :=
  127

/-! ## Plain values -/

mutual

/-- Every string and every name denotes a text, and every number is finite. -/
def isPlain : Json → Bool
  | .number n => n.isFinite
  | .string s => s.isSome
  | .array items => itemsPlain items
  | .object members => membersPlain members
  | _ => true
termination_by structural j => j

def itemsPlain : List Json → Bool
  | [] => true
  | item :: items => item.isPlain && itemsPlain items
termination_by structural items => items

/-- All names denote texts, and all values are plain. -/
def membersPlain : List (Option String × Json) → Bool
  | [] => true
  | (name, value) :: members => name.isSome && value.isPlain && membersPlain members
termination_by structural members => members

end

/-- The value may stand as a document: it is plain and nests within the limit. -/
def isAcceptable (j : Json) : Bool :=
  j.isPlain && decide (j.depth ≤ maxDepth)

end Json

end SeatMachine
