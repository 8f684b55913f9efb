import SeatMachine.Instruction.Record
import SeatMachine.Proofs.General
import SeatMachine.Proofs.Json.Fields
/-!
# What a record gives

However a record is written, it gives a type and the values of the operands of that type (`Gives`): a list gives
them in order, an object under their names. These two decide what instruction the record is
(`ofRecord?_eq_some_iff`), and nothing else in the record does. A record is the same instruction inside a body as at
top level: `ofRecord?_inBody`.

The body of a conditional is an array of records (`block_reading_eq_some_iff`).
-/
namespace SeatMachine

namespace Instruction

variable {inBody : Bool} {j : Json} {kind : Kind} {values : List Json} {i : Instruction}

/-! ## Records -/

/-- The instruction of a record, inside a body or at top level. -/
def ofRecord? (inBody : Bool) : Json → Option Instruction
  | .array items => ofItems? inBody (itemReadings items)
  | .object members => ofFields? inBody (memberReadings members)
  | _ => none

theorem ofRecord?_false (j : Json) : ofRecord? false j = ofJson? j := by
  cases j <;> rfl

theorem ofRecord?_true (j : Json) : ofRecord? true j = (reading j).instruction := by
  cases j <;> rfl

/-- A record gives a type and the values of its operands. -/
inductive Gives (inBody : Bool) : Json → Kind → List Json → Prop
  | items {tag : Json} {values : List Json} {kind : Kind} :
    Kind.ofJson? inBody tag = some kind → Gives inBody (.array (tag :: values)) kind values
  | fields {members : List (Option String × Json)} {tag : Json} {values : List Json} {kind : Kind} :
    Json.field? "type" members = some tag → Kind.ofJson? inBody tag = some kind →
    (kind.operands.mapM fun name => Json.field? name members) = some values →
    Gives inBody (.object members) kind values

theorem Gives.ofRecord?_eq (h : Gives inBody j kind values) :
    ofRecord? inBody j = ofOperands? kind (values.map reading) := by
  cases h with
  | items htag => simp [ofRecord?, itemReadings, ofItems?, htag, itemReadings_eq_map]
  | fields htype htag hvalues =>
    simp [ofRecord?, ofFields?, memberReadings_eq_map, Json.field?_map, mapM_map_some, htype, htag, hvalues]

/-- A record is the instruction of the type and the operands that it gives. -/
theorem ofRecord?_eq_some_iff :
    ofRecord? inBody j = some i ↔
      ∃ kind values, Gives inBody j kind values ∧ ofOperands? kind (values.map reading) = some i := by
  constructor
  · intro h
    suffices hgives : ∃ kind values, Gives inBody j kind values by
      obtain ⟨kind, values, hgives⟩ := hgives
      exact ⟨kind, values, hgives, hgives.ofRecord?_eq.symm.trans h⟩
    cases j with
    | array items =>
      cases items with
      | nil => cases h
      | cons tag values =>
        obtain ⟨kind, htag, -⟩ := Option.bind_eq_some_iff.1 h
        rw [reading_value] at htag
        exact ⟨kind, values, .items htag⟩
    | object members =>
      rw [ofRecord?, ofFields?, memberReadings_eq_map, Json.field?_map] at h
      obtain ⟨tag', htype', h⟩ := Option.bind_eq_some_iff.1 h
      obtain ⟨tag, htype, rfl⟩ := Option.map_eq_some_iff.1 htype'
      obtain ⟨kind, htag, h⟩ := Option.bind_eq_some_iff.1 h
      rw [reading_value] at htag
      simp only [Json.field?_map, mapM_map_some] at h
      obtain ⟨readings, hvalues', -⟩ := Option.bind_eq_some_iff.1 h
      obtain ⟨values, hvalues, -⟩ := Option.map_eq_some_iff.1 hvalues'
      exact ⟨kind, values, .fields htype htag hvalues⟩
    | _ => cases h
  · rintro ⟨kind, values, hgives, hoperands⟩
    rw [hgives.ofRecord?_eq, hoperands]

/-! ## Records in bodies -/

/-- A type that may be given at top level may be given in the same way inside a body. -/
theorem Kind.ofJson?_inBody (h : Kind.ofJson? inBody j = some kind) : Kind.ofJson? true j = some kind := by
  cases inBody with
  | true => exact h
  | false =>
    cases j with
    | string s => exact h
    | _ => cases h

theorem Gives.insideBody (h : Gives inBody j kind values) : Gives true j kind values := by
  cases h with
  | items htag => exact .items (Kind.ofJson?_inBody htag)
  | fields htype htag hvalues => exact .fields htype (Kind.ofJson?_inBody htag) hvalues

/-- A record at top level is the same instruction inside a body. -/
theorem ofRecord?_inBody (h : ofRecord? inBody j = some i) : ofRecord? true j = some i := by
  obtain ⟨kind, values, hgives, hoperands⟩ := ofRecord?_eq_some_iff.1 h
  exact ofRecord?_eq_some_iff.2 ⟨kind, values, hgives.insideBody, hoperands⟩

theorem block_reading_eq_some_iff {block : Block} :
    (reading j).block = some block ↔ ∃ items, j = .array items ∧ items.mapM (ofRecord? true) = some block := by
  have harray : ∀ items, (reading (.array items)).block = items.mapM (ofRecord? true) := by
    intro items
    have hrecord : ofRecord? true = fun item => (reading item).instruction := funext ofRecord?_true
    simp [reading, Reading.array, itemReadings_eq_map, List.mapM_map, hrecord, Function.comp_def]
  constructor
  · intro h
    cases j with
    | array items => exact ⟨items, rfl, (harray items).symm.trans h⟩
    | _ => cases h
  · rintro ⟨items, rfl, h⟩
    exact (harray items).trans h

/-! ## Operands -/

theorem kind_of_ofOperands? {readings : List Reading} (h : ofOperands? kind readings = some i) : i.kind = kind := by
  unfold ofOperands? at h
  split at h
  all_goals simp only [Option.map_eq_some_iff, Option.bind_eq_some_iff, Option.some.injEq, reduceCtorEq] at h
  all_goals grind [Instruction.kind, Operation.kind]

/-- The operands of a conditional are a cursor and a body. -/
theorem ofOperands?_branch_eq_some_iff {comparison : Comparison} :
    ofOperands? (.branch comparison) (values.map reading) = some i ↔
      ∃ target items cursor block, values = [target, .array items] ∧ Cursor.ofJson? target = some cursor ∧
        items.mapM (ofRecord? true) = some block ∧ i = .branch comparison cursor block := by
  constructor
  · intro h
    rcases values with _ | ⟨target, _ | ⟨body, _ | ⟨_, _⟩⟩⟩
    · cases h
    · cases h
    · obtain ⟨cursor, hcursor, h⟩ := Option.bind_eq_some_iff.1 h
      obtain ⟨block, hblock, rfl⟩ := Option.map_eq_some_iff.1 h
      obtain ⟨items, rfl, hitems⟩ := block_reading_eq_some_iff.1 hblock
      rw [reading_value] at hcursor
      exact ⟨target, items, cursor, block, rfl, hcursor, hitems, rfl⟩
    · cases h
  · rintro ⟨target, items, cursor, block, rfl, hcursor, hitems, rfl⟩
    have hblock : (reading (.array items)).block = some block := block_reading_eq_some_iff.2 ⟨items, rfl, hitems⟩
    simp [ofOperands?, hcursor, hblock]

end Instruction

end SeatMachine
