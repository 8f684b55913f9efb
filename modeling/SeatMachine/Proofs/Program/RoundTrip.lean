import SeatMachine.Program
import SeatMachine.Proofs.Instruction.Record
import SeatMachine.Proofs.Json.RoundTrip
/-!
# Programs survive being written

Every instruction is the instruction of its record, inside a body and at top level (`mapM_itemReadings`,
`ofJson?_toJson`): the tag gives the type, the type gives the names of the operands, and under these names
stand the operands.

So a program that is written and loaded again comes back unchanged, unless its text nests too deep
(`load_write`). Nothing else can keep it from coming back, since the values that are written are regular.
-/
namespace SeatMachine

namespace Instruction

/-! ## Records -/

theorem Kind.nodup_fieldNames (kind : Kind) : ("type" :: kind.operands).Nodup := by
  cases kind with
  | branch comparison => cases comparison <;> decide
  | _ => decide

/-- The members of the record of a type with its operands. -/
def Kind.members (kind : Kind) (values : List Json) : List (Option String × Json) :=
  (("type", Json.text kind.tag) :: kind.operands.zip values).map fun m => (some m.1, m.2)

/-- A record is read by its type from the operands it was made of. -/
theorem ofFields?_members (inBody : Bool) (kind : Kind) {values : List Json}
    (h : values.length = kind.operands.length) :
    ofFields? inBody (memberReadings (kind.members values)) = ofOperands? kind (values.map reading) := by
  let fields := ("type", reading (.text kind.tag)) :: kind.operands.zip (values.map reading)
  have hreadings : memberReadings (kind.members values) = fields.map fun m => (some m.1, m.2) := by
    simp [Kind.members, fields, memberReadings_eq_map, List.zip_map_right]
  have hlength : (values.map reading).length = kind.operands.length := by simpa using h
  have hnodup : (fields.map Prod.fst).Nodup := by
    rw [List.map_cons, List.map_fst_zip (Nat.le_of_eq hlength.symm)]
    exact kind.nodup_fieldNames
  have htype := Json.field?_of_mem hnodup (List.mem_cons_self : ("type", reading (.text kind.tag)) ∈ fields)
  have hoperands := Json.mapM_field?_zip hnodup hlength fun field hfield => List.mem_cons_of_mem _ hfield
  have hkind : Kind.ofJson? inBody (.text kind.tag) = some kind := congrArg some kind.ofTag_tag
  rw [hreadings, ofFields?, htype, Option.bind_some, reading_value, hkind, Option.bind_some, hoperands,
    Option.bind_some]

/-! ## Instructions -/

def operandValues : Instruction → List Json
  | .op operation => operation.operandValues
  | .branch _ target body => [target.toJson, .array (blockToJson body)]

theorem toJson_eq (i : Instruction) : i.toJson = i.kind.record i.operandValues := by
  cases i <;> rfl

theorem length_operandValues (i : Instruction) : i.operandValues.length = i.kind.operands.length := by
  cases i with
  | op operation => cases operation <;> rfl
  | branch comparison target body => rfl

theorem ofOperands?_operation (operation : Operation) :
    ofOperands? operation.kind (operation.operandValues.map reading) = some (.op operation) := by
  cases operation <;> simp [Operation.kind, Operation.operandValues, ofOperands?]

mutual

theorem ofOperands?_operandValues : ∀ i : Instruction,
    ofOperands? i.kind (i.operandValues.map reading) = some i
  | .op operation => ofOperands?_operation operation
  | .branch comparison target body => by
    have hbody : (reading (.array (blockToJson body))).block = some body := mapM_itemReadings body
    simp [kind, operandValues, ofOperands?, hbody]
termination_by structural i => i

theorem mapM_itemReadings : ∀ block : Block,
    (itemReadings (blockToJson block)).mapM Reading.instruction = some block
  | [] => rfl
  | i :: block => by
    have hfirst : (reading i.toJson).instruction = some i := by
      rw [toJson_eq]
      exact (ofFields?_members true i.kind i.length_operandValues).trans (ofOperands?_operandValues i)
    have hrest := mapM_itemReadings block
    simp [blockToJson, itemReadings, hfirst, hrest]
termination_by structural block => block

end

/-- An instruction is the instruction of its record. -/
theorem ofJson?_toJson (i : Instruction) : ofJson? i.toJson = some i := by
  rw [toJson_eq]
  exact (ofFields?_members false i.kind i.length_operandValues).trans (ofOperands?_operandValues i)

theorem mapM_ofJson?_blockToJson (block : Block) : (blockToJson block).mapM ofJson? = some block := by
  induction block with
  | nil => rfl
  | cons i block ih => simp [blockToJson, ofJson?_toJson, ih]

/-! ## Regular records -/

theorem Kind.isRegular_record (kind : Kind) {values : List Json}
    (h : ∀ value ∈ values, Json.IsRegular value) : Json.IsRegular (kind.record values) := by
  refine .record fun member hmember => ?_
  rcases List.mem_cons.mp hmember with rfl | hzip
  · exact .text _
  · exact h _ (List.of_mem_zip hzip).2

theorem isRegular_operandValues (operation : Operation) :
    ∀ value ∈ operation.operandValues, Json.IsRegular value := by
  cases operation <;> simp [Operation.operandValues, Cursor.toJson, Json.IsRegular.text, Json.isRegular_int64]

mutual

theorem isRegular_toJson : ∀ i : Instruction, Json.IsRegular i.toJson
  | .op operation => operation.kind.isRegular_record (isRegular_operandValues operation)
  | .branch comparison target body => by
    have hbody : Json.IsRegular (.array (blockToJson body)) := .array (isRegular_blockToJson body)
    refine (Kind.branch comparison).isRegular_record fun value hvalue => ?_
    rcases List.mem_cons.mp hvalue with rfl | hvalue
    · exact .text _
    · exact List.mem_singleton.mp hvalue ▸ hbody
termination_by structural i => i

theorem isRegular_blockToJson : ∀ block : Block, ∀ item ∈ blockToJson block, Json.IsRegular item
  | [], _, h => nomatch h
  | i :: block, item, h => by
    rcases List.mem_cons.mp h with rfl | htail
    · exact isRegular_toJson i
    · exact isRegular_blockToJson block item htail
termination_by structural block => block

end

end Instruction

/-! ## Programs -/

namespace Program

/-- Loading gives a program if the text denotes an acceptable value of that program. -/
theorem load_eq_ok_iff {text : String} {p : Program} :
    load text = .ok p ↔ ∃ j, Json.parse? text = some j ∧ j.isAcceptable = true ∧ ofJson? j = some p := by
  unfold load
  cases Json.parse? text with
  | none => simp
  | some j =>
    cases hacceptable : j.isAcceptable with
    | false => simp [hacceptable]
    | true => cases hj : ofJson? j <;> simp [hacceptable, hj]

/-- A program is an array of records. -/
theorem ofJson?_eq_some_iff {j : Json} {p : Program} :
    ofJson? j = some p ↔ ∃ items, j = .array items ∧ items.mapM (Instruction.ofRecord? false) = some p.block := by
  have hrecord : Instruction.ofRecord? false = Instruction.ofJson? := funext Instruction.ofRecord?_false
  rw [hrecord]
  cases j with
  | array items =>
    rw [ofJson?, Option.map_eq_some_iff]
    constructor
    · rintro ⟨block, hblock, rfl⟩
      exact ⟨items, rfl, hblock⟩
    · rintro ⟨items, heq, hblock⟩
      cases heq
      exact ⟨p.block, hblock, rfl⟩
  | _ => simp [ofJson?]

theorem ofJson?_toJson (p : Program) : ofJson? p.toJson = some p := by
  simp [toJson, ofJson?, Instruction.mapM_ofJson?_blockToJson]

theorem isRegular_toJson (p : Program) : Json.IsRegular p.toJson :=
  .array (Instruction.isRegular_blockToJson p.block)

/-- **Programs come back.** The text of every program is JSON, and loading it gives the program again if
at most 127 arrays and objects are open at once in the text; otherwise loading fails. -/
theorem load_write (p : Program) :
    ∃ n, Json.nesting? p.write = some n ∧
      load p.write = if n ≤ 127 then .ok p else .error (.json .program) := by
  refine ⟨p.toJson.depth, Json.nesting?_compact p.isRegular_toJson.isValid, ?_⟩
  have hacceptable : p.toJson.isAcceptable = decide (p.toJson.depth ≤ 127) :=
    p.isRegular_toJson.isValid.isAcceptable
  rw [load, write, Json.parse?_compact p.isRegular_toJson.isValid]
  simp only [hacceptable, p.ofJson?_toJson, decide_eq_true_eq]

end Program

end SeatMachine
