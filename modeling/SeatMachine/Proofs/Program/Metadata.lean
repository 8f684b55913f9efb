import Mathlib.Data.List.Basic
import Mathlib.Logic.Relation
import SeatMachine.Proofs.Program.Place
/-!
# What an editor may change

The members of a record may stand in any order, and an editor may keep data of its own under names that are neither
the type nor an operand of the record; a record of a type that is not listed may hold anything besides its type.
`MembersEdit` is one such change to one record, and `Edits` one such change anywhere in a program.

A record gives the same type and operands after a change (`MembersEdit.gives`), so the program stays the same after
any number of them: `load_of_edits`.
-/
namespace SeatMachine

namespace Instruction

/-! ## Changes to one record -/

/-- A change to the members of a record that does not change its instruction. -/
inductive MembersEdit : List (Option String × Json) → List (Option String × Json) → Prop
  /-- The members are put in another order. -/
  | reorder {members members' : List (Option String × Json)} : members.Perm members' → MembersEdit members members'
  /-- A member is added that is neither the type nor an operand. -/
  | add {members : List (Option String × Json)} {kind : Kind} {name : String} {value : Json} :
    kindOf? members = some kind → name ≠ "type" → name ∉ kind.operands → value.IsValid →
    MembersEdit members ((some name, value) :: members)
  /-- A member other than the type is removed from a record of a type that is not listed. -/
  | remove {members : List (Option String × Json)} {name : String} {value : Json} :
    kindOf? members = some .unknown → name ≠ "type" → MembersEdit ((some name, value) :: members) members

namespace MembersEdit

variable {members members' : List (Option String × Json)} {inBody : Bool} {kind : Kind} {values : List Json}

theorem field?_eq (h : MembersEdit members members') (hkind : kindOf? members = some kind) {name : String}
    (hname : name = "type" ∨ name ∈ kind.operands) {value : Json} (hfield : Json.field? name members = some value) :
    Json.field? name members' = some value := by
  cases h with
  | reorder hperm => exact Json.field?_perm hperm hfield
  | @add _ kind' other added hkind' htype hoperand _ =>
    obtain rfl : kind' = kind := Option.some.inj (hkind'.symm.trans hkind)
    have hne : other ≠ name := by
      rintro rfl
      exact hname.elim htype hoperand
    exact (Json.field?_insert_of_ne hne [] added members).trans hfield
  | @remove _ other removed hkind' htype =>
    have hsame : ∀ name', other ≠ name' →
        Json.field? name' ((some other, removed) :: members') = Json.field? name' members' := fun name' hne =>
      Json.field?_insert_of_ne hne [] removed members'
    rw [kindOf?, hsame "type" htype, ← kindOf?, hkind'] at hkind
    cases hkind
    -- No name is an operand of an unknown record, so only the type is left.
    obtain rfl : name = "type" := hname.resolve_right List.not_mem_nil
    exact (hsame "type" htype).symm.trans hfield

theorem gives (h : MembersEdit members members') (hgives : Gives inBody (.object members) kind values) :
    Gives inBody (.object members') kind values := by
  have hkind := hgives.kindOf?_eq
  cases hgives with
  | fields htype htag hvalues =>
    refine .fields (h.field?_eq hkind (.inl rfl) htype) htag ?_
    exact mapM_of_agrees hvalues fun name hname value hfield => h.field?_eq hkind (.inr hname) hfield

theorem ofRecord?_eq (h : MembersEdit members members') {i : Instruction}
    (hi : ofRecord? inBody (.object members) = some i) : ofRecord? inBody (.object members') = some i := by
  obtain ⟨kind, values, hgives, hoperands⟩ := ofRecord?_eq_some_iff.1 hi
  exact ofRecord?_eq_some_iff.2 ⟨kind, values, h.gives hgives, hoperands⟩

theorem isValid (h : MembersEdit members members') (hvalid : (Json.object members).IsValid) :
    (Json.object members').IsValid := by
  rw [Json.isValid_object_iff] at hvalid ⊢
  cases h with
  | reorder hperm => exact fun member hmember => hvalid member (hperm.mem_iff.2 hmember)
  | add _ _ _ hvalue => exact List.forall_mem_cons.2 ⟨⟨rfl, hvalue⟩, hvalid⟩
  | remove _ _ => exact (List.forall_mem_cons.1 hvalid).2

end MembersEdit

theorem eq_unknown_of_kindOf? {members : List (Option String × Json)} {inBody : Bool} {i : Instruction}
    (hkind : kindOf? members = some .unknown) (h : ofRecord? inBody (.object members) = some i) : i = .op .unknown := by
  obtain ⟨kind, values, hgives, hoperands⟩ := ofRecord?_eq_some_iff.1 h
  obtain rfl : Kind.unknown = kind := Option.some.inj (hkind.symm.trans hgives.kindOf?_eq)
  have hi : i.kind = .unknown := kind_of_ofOperands? hoperands
  cases i with
  | op operation =>
    cases operation with
    | unknown => rfl
    | _ => cases hi
  | branch comparison target body => cases hi

end Instruction

/-! ## Changes to a program -/

namespace Program

/-- A change to one record of a program, at any place. -/
inductive Edits : Json → Json → Prop
  | record (place : Place) {members members' : List (Option String × Json)} :
    Instruction.MembersEdit members members' → Edits (place.fill (.object members)) (place.fill (.object members'))

/-- After a change, a valid program is valid, and the program that it was before. -/
theorem Edits.ofJson?_eq {j j' : Json} (h : Edits j j') {p : Program} (hvalid : j.IsValid)
    (hj : ofJson? j = some p) : j'.IsValid ∧ ofJson? j' = some p := by
  cases h with
  | record place hedit =>
    obtain ⟨hrecord, hfill⟩ := place.isValid_fill hvalid
    obtain ⟨i, hi, -, hreplace⟩ := place.ofJson?_fill hj
    refine ⟨hfill _ (hedit.isValid hrecord), ?_⟩
    -- The instruction is replaced by itself, both times.
    rw [hreplace _ i (hedit.ofRecord?_eq hi), ← hreplace _ i hi, hj]

theorem ofJson?_of_edits {j j' : Json} (h : Relation.ReflTransGen Edits j j') {p : Program} (hvalid : j.IsValid)
    (hj : ofJson? j = some p) : j'.IsValid ∧ ofJson? j' = some p := by
  induction h with
  | refl => exact ⟨hvalid, hj⟩
  | tail _ hedit ih => exact hedit.ofJson?_eq ih.1 ih.2

/-- **Neither the order of members nor the data of an editor matter.** Let a text load as a program, and change any
of its records in any number of steps: by putting its members in another order, by adding members that are neither
its type nor one of its operands, with any valid values, or, if its type is not listed, by removing members other
than the type. If the result nests within the limit, it has a text, and each of its texts loads as the same program;
records of a type that is not listed stay unknown. -/
theorem load_of_edits {text : String} {p : Program} {j j' : Json} (hload : load text = .ok p)
    (hparse : Json.parse? text = some j) (hedits : Relation.ReflTransGen Edits j j') (hdepth : j'.depth ≤ 127) :
    (∃ text', Json.parse? text' = some j') ∧
    (∀ text', Json.parse? text' = some j' → load text' = .ok p) ∧
    ∀ (place : Place) (members : List (Option String × Json)), j' = place.fill (.object members) →
      Instruction.kindOf? members = some .unknown → p.at? place.path = some (.op .unknown) := by
  obtain ⟨hvalid, hj⟩ := isValid_of_load hload hparse
  obtain ⟨hvalid', hj'⟩ := ofJson?_of_edits hedits hvalid hj
  refine ⟨⟨j'.compact, Json.parse?_compact hvalid'⟩, fun text' htext' => ?_, fun place members heq hkind => ?_⟩
  · exact load_of_isValid htext' hvalid' hdepth hj'
  · obtain ⟨i, hi, hat, -⟩ := place.ofJson?_fill (heq ▸ hj')
    rw [hat, Instruction.eq_unknown_of_kindOf? hkind hi]

/-- An editor exchanges what a record of a body holds besides its type, which is not listed; it keeps a line number
with the conditional around it, and writes the members of that in the opposite order: the program stays the same. -/
theorem load_of_edits_rewritten :
    let text := "[\x7b\"type\":\"IF_LESS\",\"target\":\"MOCO\",\"body\":[\x7b\"speed\":null,\"type\":\"FLY\"\x7d]\x7d]"
    let text' :=
      "[\x7b\"body\":[\x7b\"target\":[],\"type\":\"FLY\"\x7d],\"target\":\"MOCO\",\"type\":\"IF_LESS\",\"line\":1e3\x7d]"
    let p : Program := ⟨[.branch .less .moco [.op .unknown]]⟩
    load text = .ok p ∧ load text' = .ok p := by
  intro text text' p
  let tag : Option String × Json := (some "type", .text "IF_LESS")
  let target : Option String × Json := (some "target", .text "MOCO")
  let flying : Option String × Json := (some "type", .text "FLY")
  let body : Option String × Json := (some "body", .array [.object [(some "target", .array []), flying]])
  let line : Option String × Json := (some "line", .number ⟨false, ['1'], [], some (false, ['3'])⟩)
  let inside : Place := .body (.top [] []) (.object .less [tag, target] [] (by decide)) [] []
  have hlineValid : line.2.IsValid :=
    .number (Json.Number.isLiteral_of_ofChars? (show Json.Number.ofChars? "1e3".toList = some _ from rfl))
      (by decide +kernel)
  have hremoved : Instruction.MembersEdit [(some "speed", .null), flying] [flying] := .remove rfl (by decide)
  have hadded : Instruction.MembersEdit [flying] [(some "target", .array []), flying] :=
    .add rfl (by decide) (by decide) (.array fun _ h => nomatch h)
  have hline : Instruction.MembersEdit [tag, target, body] [line, tag, target, body] :=
    .add rfl (by decide) (by decide) hlineValid
  have hreversed : Instruction.MembersEdit [line, tag, target, body] [body, target, tag, line] :=
    .reorder (List.reverse_perm _).symm
  have hedits := Relation.ReflTransGen.refl.tail (Edits.record inside hremoved) |>.tail (.record inside hadded)
    |>.tail (.record (.top [] []) hline) |>.tail (.record (.top [] []) hreversed)
  -- Both texts are written without blanks.
  have hvalid : (inside.fill (.object [(some "speed", .null), flying])).IsValid := by
    simp [inside, Place.fill, Instruction.Shell.wrap, Json.isValid_array_iff, Json.isValid_object_iff, tag, target,
      flying, Json.IsValid.text, Json.IsValid.null]
  have hparse := Json.parse?_compact hvalid
  rw [show Json.compact _ = text by decide +kernel] at hparse
  have hparse' := Json.parse?_compact (ofJson?_of_edits hedits hvalid rfl).1
  rw [show Json.compact _ = text' by decide +kernel] at hparse'
  have hload : load text = .ok p := by decide +kernel
  obtain ⟨-, hloads, -⟩ := load_of_edits hload hparse hedits (by decide)
  exact ⟨hload, hloads text' hparse'⟩

end Program

end SeatMachine
