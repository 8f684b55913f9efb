import SeatMachine.Json.Basic
/-!
# Typed values and fields

Strict readings of a value: nothing is converted, and an integer must fit the word it is read into.
A record reads each of its fields by name from the members of an object; a field that occurs twice
is never read.
-/
namespace SeatMachine.Json

/-! ## Scalars -/

def toText? : Json → Option String
  | .string s => s
  | _ => none

def toBool? : Json → Option Bool
  | .bool b => some b
  | _ => none

def toInt? : Json → Option Int
  | .number n => n.toInt?
  | _ => none

def toInt64? (j : Json) : Option Int64 :=
  j.toInt?.bind fun i =>
    if Int64.minValue.toInt ≤ i ∧ i ≤ Int64.maxValue.toInt then some (Int64.ofInt i) else none

def toUInt64? (j : Json) : Option UInt64 :=
  j.toInt?.bind fun i =>
    if 0 ≤ i ∧ i.toNat < UInt64.size then some (UInt64.ofNat i.toNat) else none

/-- The items of an array, each read by `f`. -/
def toList? {α : Type} (f : Json → Option α) : Json → Option (List α)
  | .array items => items.mapM f
  | _ => none

/-- The value read by `f`, or nothing for null. -/
def toOption? {α : Type} (f : Json → Option α) : Json → Option (Option α)
  | .null => some none
  | j => (f j).map some

@[simp]
theorem toText?_text (s : String) : (text s).toText? = some s := rfl

@[simp]
theorem toInt?_int (i : Int) : (int i).toInt? = some i :=
  Number.toInt?_ofInt i

@[simp]
theorem toInt64?_int (x : Int64) : (int x.toInt).toInt64? = some x := by
  have h : Int64.minValue.toInt ≤ x.toInt ∧ x.toInt ≤ Int64.maxValue.toInt :=
    ⟨x.minValue_le_toInt, x.toInt_le⟩
  simp only [toInt64?, toInt?_int, Option.bind_some, if_pos h, Int64.ofInt_toInt]

@[simp]
theorem toUInt64?_nat (x : UInt64) : (nat x.toNat).toUInt64? = some x := by
  have h : (0 : Int) ≤ (x.toNat : Int) ∧ (x.toNat : Int).toNat < UInt64.size :=
    ⟨Int.natCast_nonneg _, x.toNat_lt⟩
  rw [toUInt64?, nat, toInt?_int, Option.bind_some, if_pos h, Int.toNat_natCast,
    UInt64.ofNat_toNat]

@[simp]
theorem toOption?_nat (x : UInt64) : (nat x.toNat).toOption? toUInt64? = some (some x) :=
  congrArg (Option.map some) (toUInt64?_nat x)

/-! ## Fields -/

def fieldsNamed {α : Type} (name : String) (fields : List (Option String × α)) : List α :=
  (fields.filter fun field => field.1 == some name).map (·.2)

/-- The value of a field that must occur exactly once. -/
def field? {α : Type} (name : String) (fields : List (Option String × α)) : Option α :=
  match fieldsNamed name fields with
  | [value] => some value
  | _ => none

/-- The value of a field that may be left out, read by `f`; `default` if it is left out. -/
def fieldOr? {α β : Type} (name : String) (default : β) (f : α → Option β)
    (fields : List (Option String × α)) : Option β :=
  match fieldsNamed name fields with
  | [] => some default
  | [value] => f value
  | _ => none

/-- Every field's name denotes a text. -/
def areNamed {α : Type} (fields : List (Option String × α)) : Bool :=
  fields.all fun field => field.1.isSome

end SeatMachine.Json
