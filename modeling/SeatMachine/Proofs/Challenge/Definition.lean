import Mathlib.Logic.Relation
import SeatMachine.Challenge.Record
import SeatMachine.Proofs.Json.Fields
import SeatMachine.Proofs.Json.Layout
import SeatMachine.Proofs.Json.Reading
/-!
# What a definition says

A challenge is the challenge of its definition (`ofJson?_toJson`), so it comes back when it is written and loaded again.

Of a definition in object form, only what stands under the names of the fields matters: the members may stand in any
order, further members may be added, and a field may be removed that holds what it would hold if it were left out.
`MembersEdit` is one such change. It leaves each field as it is, or takes away one that holds its default
(`MembersEdit.fieldsNamed_eq`), so the challenge stays the same after any number of them: `load_of_definition`.
-/
namespace SeatMachine

namespace Difficulty

theorem ofJson?_name (difficulty : Difficulty) : ofJson? (.text difficulty.name) = some difficulty := by
  cases difficulty <;> decide

end Difficulty

namespace Challenge

/-! ## Definitions as they are written -/

theorem seatsOfJson?_seatsToJson (seats : List Int64) : seatsOfJson? (seatsToJson seats) = some seats := by
  unfold seatsOfJson? seatsToJson Json.toList?
  induction seats with
  | nil => rfl
  | cons seat seats ih => simp [ih]

theorem ofJson?_toJson (c : Challenge) : ofJson? c.toJson = some c := by
  obtain ⟨id, title, description, difficulty, initialArray, targetArray, maxSteps, unlocked⟩ := c
  cases maxSteps <;>
    simp [toJson, ofJson?, ofMembers?, Json.record, Json.areNamed, Json.field?, Json.fieldOr?, Json.fieldsNamed,
      Json.toBool?, Difficulty.ofJson?_name, seatsOfJson?_seatsToJson]

theorem isRegular_seatsToJson (seats : List Int64) : Json.IsRegular (seatsToJson seats) := by
  refine .array fun item hitem => ?_
  obtain ⟨seat, -, rfl⟩ := List.mem_map.1 hitem
  exact Json.isRegular_int64 seat

theorem isRegular_toJson (c : Challenge) : Json.IsRegular c.toJson := by
  obtain ⟨id, title, description, difficulty, initialArray, targetArray, maxSteps, unlocked⟩ := c
  have hinitial := isRegular_seatsToJson initialArray
  have htarget := isRegular_seatsToJson targetArray
  refine .record ?_
  cases maxSteps with
  | none => simp [Json.IsRegular.text, Json.IsRegular.bool, hinitial, htarget]
  | some budget => simp [Json.IsRegular.text, Json.IsRegular.bool, Json.isRegular_nat, hinitial, htarget]

theorem load_eq_ok_iff {text : String} {c : Challenge} :
    load text = .ok c ↔ ∃ j, Json.parse? text = some j ∧ ofJson? j = some c := by
  unfold load
  rw [← Option.bind_eq_some_iff]
  cases (Json.parse? text).bind ofJson? <;> simp

/-! ## Definitions in object form -/

def fieldNames : List String :=
  ["id", "title", "description", "difficulty", "initialArray", "targetArray", "maxSteps", "unlocked"]

/-- The challenge has the default value in the field of this name. The two rows have no defaults. -/
def HasDefault (c : Challenge) (name : String) : Prop :=
  name = "id" ∧ c.id = "" ∨ name = "title" ∧ c.title = "" ∨ name = "description" ∧ c.description = "" ∨
    name = "difficulty" ∧ c.difficulty = .easy ∨ name = "maxSteps" ∧ c.maxSteps = none ∨
    name = "unlocked" ∧ c.unlocked = true

/-- A definition in object form has the value of each field under its name, but for defaults, which may be left out. -/
theorem ofMembers?_eq_some_iff {members : List (Option String × Json)} {c : Challenge} :
    ofMembers? members = some c ↔
      Json.areNamed members = true ∧
      Json.fieldOr? "id" "" Json.toText? members = some c.id ∧
      Json.fieldOr? "title" "" Json.toText? members = some c.title ∧
      Json.fieldOr? "description" "" Json.toText? members = some c.description ∧
      Json.fieldOr? "difficulty" .easy Difficulty.ofJson? members = some c.difficulty ∧
      (Json.field? "initialArray" members).bind seatsOfJson? = some c.initialArray ∧
      (Json.field? "targetArray" members).bind seatsOfJson? = some c.targetArray ∧
      Json.fieldOr? "maxSteps" none (Json.toOption? Json.toUInt64?) members = some c.maxSteps ∧
      Json.fieldOr? "unlocked" true Json.toBool? members = some c.unlocked := by
  unfold ofMembers?
  cases hnamed : Json.areNamed members with
  | false => simp
  | true =>
    simp only [if_true, Option.bind_eq_bind, Option.bind_eq_some_iff, Option.pure_def, Option.some.injEq, true_and]
    constructor
    · rintro ⟨id, hid, title, htitle, description, hdescription, difficulty, hdifficulty, initial, hinitial, target,
        htarget, maxSteps, hmaxSteps, unlocked, hunlocked, rfl⟩
      exact ⟨hid, htitle, hdescription, hdifficulty, hinitial, htarget, hmaxSteps, hunlocked⟩
    · rintro ⟨hid, htitle, hdescription, hdifficulty, hinitial, htarget, hmaxSteps, hunlocked⟩
      exact ⟨_, hid, _, htitle, _, hdescription, _, hdifficulty, _, hinitial, _, htarget, _, hmaxSteps, _, hunlocked,
        rfl⟩

/-- A change to the members of a definition of a challenge that does not change the challenge. -/
inductive MembersEdit (c : Challenge) : List (Option String × Json) → List (Option String × Json) → Prop
  /-- The members are put in another order. -/
  | reorder {members members' : List (Option String × Json)} : members.Perm members' → MembersEdit c members members'
  /-- A member of another name is added, with a value that some text denotes. -/
  | add (before : List (Option String × Json)) {after : List (Option String × Json)} {name text : String}
      {value : Json} :
    name ∉ fieldNames → Json.parse? text = some value →
    MembersEdit c (before ++ after) (before ++ (some name, value) :: after)
  /-- A field is removed that has its default value. -/
  | remove (before : List (Option String × Json)) {after : List (Option String × Json)} {name : String}
      {value : Json} :
    c.HasDefault name → MembersEdit c (before ++ (some name, value) :: after) (before ++ after)

namespace MembersEdit

variable {c : Challenge} {members members' : List (Option String × Json)} {name : String}

/-- After a change, a field is as it was, or it was removed and has its default value. -/
theorem fieldsNamed_eq (h : MembersEdit c members members') (hname : name ∈ fieldNames)
    (hlength : (Json.fieldsNamed name members).length ≤ 1) :
    Json.fieldsNamed name members' = Json.fieldsNamed name members ∨
      c.HasDefault name ∧ Json.fieldsNamed name members' = [] := by
  cases h with
  | reorder hperm => exact .inl (Json.fieldsNamed_perm hperm hlength)
  | @add before after other text value hother _ =>
    have hne : other ≠ name := by
      rintro rfl
      exact hother hname
    exact .inl (Json.fieldsNamed_insert_of_ne hne before after value)
  | @remove before after other value hdefault =>
    by_cases hne : other = name
    · subst hne
      -- The field that was removed was the only one of its name.
      rw [Json.fieldsNamed_insert_self, List.length_append, List.length_cons] at hlength
      refine .inr ⟨hdefault, List.eq_nil_of_length_eq_zero ?_⟩
      rw [Json.fieldsNamed_append, List.length_append]
      omega
    · exact .inl (Json.fieldsNamed_insert_of_ne hne before after value).symm

theorem fieldOr?_eq {β : Type} {default value : β} {f : Json → Option β} (h : MembersEdit c members members')
    (hname : name ∈ fieldNames) (hdefault : c.HasDefault name → value = default)
    (hread : Json.fieldOr? name default f members = some value) :
    Json.fieldOr? name default f members' = some value := by
  rcases h.fieldsNamed_eq hname (Json.length_fieldsNamed_of_fieldOr? hread) with hsame | ⟨hd, hnone⟩
  · simpa only [Json.fieldOr?, hsame] using hread
  · simp only [Json.fieldOr?, hnone, hdefault hd]

theorem field?_eq (h : MembersEdit c members members') (hname : name ∈ fieldNames) (hrequired : ¬ c.HasDefault name)
    {value : Json} (hfield : Json.field? name members = some value) : Json.field? name members' = some value := by
  rcases h.fieldsNamed_eq hname (Json.length_fieldsNamed_of_field? hfield) with hsame | ⟨hd, -⟩
  · simpa only [Json.field?, hsame] using hfield
  · exact absurd hd hrequired

theorem seats_eq (h : MembersEdit c members members') (hname : name ∈ fieldNames) (hrequired : ¬ c.HasDefault name)
    {seats : List Int64} (hseats : (Json.field? name members).bind seatsOfJson? = some seats) :
    (Json.field? name members').bind seatsOfJson? = some seats := by
  obtain ⟨value, hfield, hvalue⟩ := Option.bind_eq_some_iff.1 hseats
  rw [h.field?_eq hname hrequired hfield, Option.bind_some, hvalue]

/-- What holds of all members holds of all of them after a change, if it holds of those that are added. -/
theorem forall_mem {P : Option String × Json → Prop} (h : MembersEdit c members members')
    (hadded : ∀ name text value, Json.parse? text = some value → P (some name, value))
    (hall : ∀ member ∈ members, P member) : ∀ member ∈ members', P member := by
  intro member hmember
  cases h with
  | reorder hperm => exact hall member (hperm.mem_iff.2 hmember)
  | add _ _ hparse =>
    rcases List.mem_append.1 hmember with hbefore | hmember
    · exact hall member (List.mem_append_left _ hbefore)
    · rcases List.mem_cons.1 hmember with rfl | hafter
      · exact hadded _ _ _ hparse
      · exact hall member (List.mem_append_right _ hafter)
  | remove _ _ =>
    rcases List.mem_append.1 hmember with hbefore | hafter
    · exact hall member (List.mem_append_left _ hbefore)
    · exact hall member (List.mem_append_right _ (List.mem_cons_of_mem _ hafter))

theorem areNamed (h : MembersEdit c members members') (hnamed : Json.areNamed members = true) :
    Json.areNamed members' = true := by
  rw [Json.areNamed, List.all_eq_true] at hnamed ⊢
  exact h.forall_mem (fun _ _ _ _ => rfl) hnamed

theorem ofMembers?_eq (h : MembersEdit c members members') (hc : ofMembers? members = some c) :
    ofMembers? members' = some c := by
  obtain ⟨hnamed, hid, htitle, hdescription, hdifficulty, hinitial, htarget, hmaxSteps, hunlocked⟩ :=
    ofMembers?_eq_some_iff.1 hc
  refine ofMembers?_eq_some_iff.2 ⟨h.areNamed hnamed, ?_, ?_, ?_, ?_, ?_, ?_, ?_, ?_⟩
  · exact h.fieldOr?_eq (by decide) (by simp [HasDefault]) hid
  · exact h.fieldOr?_eq (by decide) (by simp [HasDefault]) htitle
  · exact h.fieldOr?_eq (by decide) (by simp [HasDefault]) hdescription
  · exact h.fieldOr?_eq (by decide) (by simp [HasDefault]) hdifficulty
  · exact h.seats_eq (by decide) (by simp [HasDefault]) hinitial
  · exact h.seats_eq (by decide) (by simp [HasDefault]) htarget
  · exact h.fieldOr?_eq (by decide) (by simp [HasDefault]) hmaxSteps
  · exact h.fieldOr?_eq (by decide) (by simp [HasDefault]) hunlocked

end MembersEdit

/-- After any number of changes, a definition can still be written, and is one of the same challenge. -/
theorem ofMembers?_of_edits {c : Challenge} {members members' : List (Option String × Json)}
    (h : Relation.ReflTransGen (MembersEdit c) members members') (hwritable : ∀ member ∈ members, member.2.IsWritable)
    (hc : ofMembers? members = some c) :
    (∀ member ∈ members', member.2.IsWritable) ∧ ofMembers? members' = some c := by
  induction h with
  | refl => exact ⟨hwritable, hc⟩
  | tail _ hedit ih =>
    exact ⟨hedit.forall_mem (fun _ _ _ hparse => Json.isWritable_of_parse? hparse) ih.1, hedit.ofMembers?_eq ih.2⟩

/-- **Definitions come back, and only their fields matter.** The text of a challenge loads as that challenge, on one
line and indented. Let the text of any object load as the challenge, and change the object in any number of steps: by
putting its members in another order, by adding members that are no fields, with any values that texts denote, or by
removing a field that has its default value. The result has a text, and each of its texts loads as the same
challenge. -/
theorem load_of_definition (c : Challenge) :
    load c.write = .ok c ∧ load c.toJson.indented = .ok c ∧
    ∀ (text : String) (members members' : List (Option String × Json)), load text = .ok c →
      Json.parse? text = some (.object members) → Relation.ReflTransGen (MembersEdit c) members members' →
      (∃ text', Json.parse? text' = some (.object members')) ∧
      ∀ text', Json.parse? text' = some (.object members') → load text' = .ok c := by
  have hregular := c.isRegular_toJson
  refine ⟨?_, ?_, fun text members members' hload hparse hedits => ?_⟩
  · exact load_eq_ok_iff.2 ⟨c.toJson, Json.parse?_compact hregular.isValid, c.ofJson?_toJson⟩
  · exact load_eq_ok_iff.2 ⟨c.toJson, Json.parse?_indented hregular, c.ofJson?_toJson⟩
  · obtain ⟨j, hj, hc⟩ := load_eq_ok_iff.1 hload
    obtain rfl : Json.object members = j := Option.some.inj (hparse.symm.trans hj)
    have hwritable : ∀ member ∈ members, member.2.IsWritable := by
      cases Json.isWritable_of_parse? hparse with
      | object hall => exact hall
    obtain ⟨hwritable', hc'⟩ := ofMembers?_of_edits hedits hwritable hc
    refine ⟨⟨_, (Json.IsWritable.object hwritable').parse?_compact⟩, fun text' htext' => ?_⟩
    exact load_eq_ok_iff.2 ⟨_, htext', hc'⟩

/-- An id and a difficulty that are the defaults are removed, the rows exchange their places, and a note is added that
holds a number beyond all doubles and a lone surrogate: the challenge stays the same. -/
theorem load_of_definition_shortened :
    let text :=
      "\x7b\"id\":\"\",\"initialArray\":[1],\"difficulty\":\x7b\"EASY\":null\x7d,\"targetArray\":[2],\"maxSteps\":null\x7d"
    let text' := "\x7b\"note\":[1e999,\"\\ud800\"],\"targetArray\":[2],\"initialArray\":[1],\"maxSteps\":null\x7d"
    let c : Challenge := { initialArray := [1], targetArray := [2] }
    load text = .ok c ∧ load text' = .ok c := by
  intro text text' c
  let id : Option String × Json := (some "id", .text "")
  let initial : Option String × Json := (some "initialArray", seatsToJson [1])
  let difficulty : Option String × Json := (some "difficulty", .object [(some "EASY", .null)])
  let target : Option String × Json := (some "targetArray", seatsToJson [2])
  let maxSteps : Option String × Json := (some "maxSteps", .null)
  let note : Json := .array [.number ⟨false, ['1'], [], some (false, ['9', '9', '9'])⟩, .string none]
  have hnote : Json.parse? "[1e999,\"\\ud800\"]" = some note := by
    have hliteral : Json.Number.IsLiteral ⟨false, ['1'], [], some (false, ['9', '9', '9'])⟩ :=
      Json.Number.isLiteral_of_ofChars? (show Json.Number.ofChars? "1e999".toList = some _ from rfl)
    have hwritable : note.IsWritable := .array (by simp [Json.IsWritable.number hliteral, Json.IsWritable.string])
    exact hwritable.parse?_compact
  have hedits : Relation.ReflTransGen (MembersEdit c) [id, initial, difficulty, target, maxSteps]
      [(some "note", note), target, initial, maxSteps] := by
    have hid : MembersEdit c [id, initial, difficulty, target, maxSteps] [initial, difficulty, target, maxSteps] :=
      .remove [] (.inl ⟨rfl, rfl⟩)
    have hdifficulty : MembersEdit c [initial, difficulty, target, maxSteps] [initial, target, maxSteps] :=
      .remove [initial] (.inr (.inr (.inr (.inl ⟨rfl, rfl⟩))))
    have hswap : MembersEdit c [initial, target, maxSteps] [target, initial, maxSteps] := .reorder (.swap _ _ _)
    have hadd : MembersEdit c [target, initial, maxSteps] [(some "note", note), target, initial, maxSteps] :=
      .add [] (by decide) hnote
    exact .tail (.tail (.tail (.tail .refl hid) hdifficulty) hswap) hadd
  have hwritable : ∀ member ∈ [id, initial, difficulty, target, maxSteps], member.2.IsWritable := by
    have hseats := fun seats => (isRegular_seatsToJson seats).isValid.isWritable
    have heasy : difficulty.2.IsWritable := .object (by simp [Json.IsWritable.null])
    simp [id, initial, target, maxSteps, hseats, heasy, Json.text, Json.IsWritable.string, Json.IsWritable.null]
  -- Both texts are written without blanks.
  have hparse : Json.parse? text = some _ := (Json.IsWritable.object hwritable).parse?_compact
  have hparse' : Json.parse? text' = some _ :=
    (Json.IsWritable.object (ofMembers?_of_edits hedits hwritable rfl).1).parse?_compact
  have hload : load text = .ok c := load_eq_ok_iff.2 ⟨_, hparse, rfl⟩
  obtain ⟨-, -, hloads⟩ := c.load_of_definition
  exact ⟨hload, (hloads text _ _ hload hparse hedits).2 text' hparse'⟩

end Challenge

end SeatMachine
