import SeatMachine.Instruction.Basic
import SeatMachine.Json.Fields
/-!
# Instruction records

In JSON an instruction is a record: an object with a `type` and the operands of that type, or a
list of the type and its operands in order. Other members of the object are ignored, so an editor
may keep its own data there. A type that is not listed gives the unknown instruction.

Records inside a body are a little freer than those at top level: their type may also be given by
its position in the list of types.
-/
namespace SeatMachine

/-! ## Types of record -/

/-- The type of a record. -/
inductive Instruction.Kind where
  | moveLeft
  | moveRight
  | moveToEnd
  | setPointer
  | setValue
  | pick
  | put
  | swap
  | swapWithNext
  | increment
  | decrement
  | branch (comparison : Comparison)
  | ifEnd
  | ifMeet
  | jump
  | label
  | wait
  | unknown
deriving DecidableEq, Repr

namespace Instruction.Kind

/-- The listed types; the place in this list is the number of the type. -/
def listed : List Kind :=
  [.moveLeft, .moveRight, .moveToEnd, .setPointer, .setValue, .pick, .put, .swap, .swapWithNext,
    .increment, .decrement, .branch .greater, .branch .less, .branch .equal, .branch .notEqual,
    .ifEnd, .ifMeet, .jump, .label, .wait]

def tag : Kind → String
  | .moveLeft => "MOVE_LEFT"
  | .moveRight => "MOVE_RIGHT"
  | .moveToEnd => "MOVE_TO_END"
  | .setPointer => "SET_POINTER"
  | .setValue => "SET_VALUE"
  | .pick => "PICK"
  | .put => "PUT"
  | .swap => "SWAP"
  | .swapWithNext => "SWAP_WITH_NEXT"
  | .increment => "INCREMENT_VALUE"
  | .decrement => "DECREMENT_VALUE"
  | .branch .greater => "IF_GREATER"
  | .branch .less => "IF_LESS"
  | .branch .equal => "IF_EQUAL"
  | .branch .notEqual => "IF_NOT_EQUAL"
  | .ifEnd => "IF_END"
  | .ifMeet => "IF_MEET"
  | .jump => "JUMP"
  | .label => "LABEL"
  | .wait => "WAIT"
  | .unknown => "UNKNOWN"

/-- The names of the operands, in order. -/
def operands : Kind → List String
  | .moveLeft | .moveRight | .moveToEnd | .pick | .put | .swapWithNext | .increment | .decrement =>
    ["target"]
  | .setPointer => ["target", "index"]
  | .setValue => ["target", "value"]
  | .branch _ => ["target", "body"]
  | .ifEnd => ["target", "label"]
  | .ifMeet | .jump => ["label"]
  | .label => ["labelName"]
  | .swap | .wait | .unknown => []

/-- The type with this tag; unknown if it is not listed. -/
def ofTag (tag : String) : Kind :=
  (listed.find? fun kind => kind.tag == tag).getD .unknown

/-- The type with this number; unknown beyond the list. -/
def ofNumber (n : Nat) : Kind :=
  listed[n]?.getD .unknown

/-- The type that a `type` member gives. Inside a body it may be a number. -/
def ofJson? (inBody : Bool) (j : Json) : Option Kind :=
  match j with
  | .string s => s.map ofTag
  | j => if inBody then j.toUInt64?.map fun n => ofNumber n.toNat else none

/-- A tag gives back its type. -/
theorem ofTag_tag (kind : Kind) : ofTag kind.tag = kind := by
  cases kind with
  | branch comparison => cases comparison <;> decide
  | _ => decide

end Instruction.Kind

def Operation.kind : Operation → Instruction.Kind
  | .moveLeft _ => .moveLeft
  | .moveRight _ => .moveRight
  | .moveToEnd _ => .moveToEnd
  | .setPointer _ _ => .setPointer
  | .setValue _ _ => .setValue
  | .pick _ => .pick
  | .put _ => .put
  | .swap => .swap
  | .swapWithNext _ => .swapWithNext
  | .increment _ => .increment
  | .decrement _ => .decrement
  | .ifEnd _ _ => .ifEnd
  | .ifMeet _ => .ifMeet
  | .jump _ => .jump
  | .label _ => .label
  | .wait => .wait
  | .unknown => .unknown

def Instruction.kind : Instruction → Instruction.Kind
  | .op operation => operation.kind
  | .branch comparison _ _ => .branch comparison

/-- The tag under which an instruction is written. -/
def Instruction.name (i : Instruction) : String :=
  i.kind.tag

/-! ## Cursors -/

def Cursor.toJson (cursor : Cursor) : Json :=
  .text cursor.name

def Cursor.ofName? (name : String) : Option Cursor :=
  Cursor.all.find? fun cursor => cursor.name == name

/-- The cursor a value names: a string, or an object with that one member, holding nothing. -/
def Cursor.ofJson? : Json → Option Cursor
  | .string s => s.bind Cursor.ofName?
  | .object [(name, .null)] => name.bind Cursor.ofName?
  | .object [(name, .object [])] => name.bind Cursor.ofName?
  | _ => none

@[simp]
theorem Cursor.ofJson?_toJson (cursor : Cursor) : Cursor.ofJson? cursor.toJson = some cursor := by
  cases cursor <;> decide

/-! ## Writing -/

/-- The operands of an operation, in the order of their names. -/
def Operation.operandValues : Operation → List Json
  | .moveLeft t | .moveRight t | .moveToEnd t | .pick t | .put t | .swapWithNext t | .increment t
  | .decrement t => [t.toJson]
  | .setPointer t i => [t.toJson, .int i.toInt]
  | .setValue t v => [t.toJson, .int v.toInt]
  | .ifEnd t l => [t.toJson, .text l]
  | .ifMeet l | .jump l | .label l => [.text l]
  | .swap | .wait | .unknown => []

/-- The record of a type with its operands. -/
def Instruction.Kind.record (kind : Instruction.Kind) (values : List Json) : Json :=
  .record (("type", .text kind.tag) :: kind.operands.zip values)

namespace Instruction

mutual

def toJson : Instruction → Json
  | .op operation => operation.kind.record operation.operandValues
  | .branch comparison target body =>
    (Kind.branch comparison).record [target.toJson, .array (blockToJson body)]
termination_by structural i => i

def blockToJson : Block → List Json
  | [] => []
  | i :: block => i.toJson :: blockToJson block
termination_by structural block => block

end

/-! ## Reading -/

/-- A value together with what it means inside a body: as an instruction, and as a block. -/
structure Reading where
  value : Json
  instruction : Option Instruction
  block : Option Block

/-- The instruction of a type with its operands. -/
def ofOperands? : Kind → List Reading → Option Instruction
  | .moveLeft, [t] => (Cursor.ofJson? t.value).map fun t => .op (.moveLeft t)
  | .moveRight, [t] => (Cursor.ofJson? t.value).map fun t => .op (.moveRight t)
  | .moveToEnd, [t] => (Cursor.ofJson? t.value).map fun t => .op (.moveToEnd t)
  | .setPointer, [t, i] => (Cursor.ofJson? t.value).bind fun t =>
    i.value.toInt64?.map fun i => .op (.setPointer t i)
  | .setValue, [t, v] => (Cursor.ofJson? t.value).bind fun t =>
    v.value.toInt64?.map fun v => .op (.setValue t v)
  | .pick, [t] => (Cursor.ofJson? t.value).map fun t => .op (.pick t)
  | .put, [t] => (Cursor.ofJson? t.value).map fun t => .op (.put t)
  | .swap, [] => some (.op .swap)
  | .swapWithNext, [t] => (Cursor.ofJson? t.value).map fun t => .op (.swapWithNext t)
  | .increment, [t] => (Cursor.ofJson? t.value).map fun t => .op (.increment t)
  | .decrement, [t] => (Cursor.ofJson? t.value).map fun t => .op (.decrement t)
  | .branch c, [t, b] => (Cursor.ofJson? t.value).bind fun t => b.block.map fun b => .branch c t b
  | .ifEnd, [t, l] => (Cursor.ofJson? t.value).bind fun t =>
    l.value.toText?.map fun l => .op (.ifEnd t l)
  | .ifMeet, [l] => l.value.toText?.map fun l => .op (.ifMeet l)
  | .jump, [l] => l.value.toText?.map fun l => .op (.jump l)
  | .label, [n] => n.value.toText?.map fun n => .op (.label n)
  | .wait, [] => some (.op .wait)
  | .unknown, [] => some (.op .unknown)
  | _, _ => none

/-- The instruction of a record in list form. -/
def ofItems? (inBody : Bool) : List Reading → Option Instruction
  | [] => none
  | tag :: operands => (Kind.ofJson? inBody tag.value).bind fun kind => ofOperands? kind operands

/-- The instruction of a record in object form. -/
def ofFields? (inBody : Bool) (fields : List (Option String × Reading)) : Option Instruction :=
  (Json.field? "type" fields).bind fun tag =>
    (Kind.ofJson? inBody tag.value).bind fun kind =>
      (kind.operands.mapM fun name => Json.field? name fields).bind (ofOperands? kind)

/-- An array, given the readings of its items: a record in list form, or a block. -/
def Reading.array (items : List Json) (readings : List Reading) : Reading where
  value := .array items
  instruction := ofItems? true readings
  block := readings.mapM Reading.instruction

/-- An object, given the readings of its members: a record in object form. -/
def Reading.object (members : List (Option String × Json))
    (readings : List (Option String × Reading)) : Reading where
  value := .object members
  instruction := ofFields? true readings
  block := none

mutual

/-- Reads a value as it counts inside a body. -/
def reading : Json → Reading
  | .array items => .array items (itemReadings items)
  | .object members => .object members (memberReadings members)
  | j => { value := j, instruction := none, block := none }
termination_by structural j => j

def itemReadings : List Json → List Reading
  | [] => []
  | item :: items => reading item :: itemReadings items
termination_by structural items => items

def memberReadings : List (Option String × Json) → List (Option String × Reading)
  | [] => []
  | (name, value) :: members => (name, reading value) :: memberReadings members
termination_by structural members => members

end

/-- The instruction of a record at top level. -/
def ofJson? : Json → Option Instruction
  | .array items => ofItems? false (itemReadings items)
  | .object members => ofFields? false (memberReadings members)
  | _ => none

theorem itemReadings_eq_map (items : List Json) : itemReadings items = items.map reading := by
  induction items with
  | nil => rfl
  | cons item items ih => simp [itemReadings, ih]

theorem memberReadings_eq_map (members : List (Option String × Json)) :
    memberReadings members = members.map fun m => (m.1, reading m.2) := by
  induction members with
  | nil => rfl
  | cons m members ih => simp [memberReadings, ih]

@[simp]
theorem reading_value (j : Json) : (reading j).value = j := by
  cases j <;> rfl

end Instruction

end SeatMachine
