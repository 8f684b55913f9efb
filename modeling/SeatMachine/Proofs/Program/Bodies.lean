import Mathlib.Algebra.GroupWithZero.Nat
import Mathlib.Data.List.Basic
import Mathlib.Tactic.Convert
import SeatMachine.Proofs.Program.Place
/-!
# Bodies

A body is written like a program: texts of records with commas between them, in brackets. Records in bodies are read
more freely than those of a program, but a record that makes a program of one instruction is the same instruction in
a body (`exists_record_of_load`, `ofRecord?_inBody`). So a conditional that is put together from the texts of such
records holds their instructions in order.

The conditional may itself stand wherever a record may stand, as long as the whole nests within the limit:
`load_conditionalText`.
-/
namespace SeatMachine

namespace Instruction

theorem countBlock_eq_sum (block : Block) : countBlock block = (block.map count).sum := by
  induction block with
  | nil => rfl
  | cons i block ih => rw [countBlock, List.map_cons, List.sum_cons, ih]

/-! ## Texts of conditionals -/

/-- The text of a conditional whose body holds the records of these texts. -/
def conditionalText (comparison : Comparison) (target : Cursor) (texts : List String) : String :=
  "\x7b\"type\":\"" ++ (Kind.branch comparison).tag ++ "\",\"target\":\"" ++ target.name ++ "\",\"body\":[" ++
    ",".intercalate texts ++ "]\x7d"

def conditionalRecord (comparison : Comparison) (target : Cursor) (records : List Json) : Json :=
  (Kind.branch comparison).record [target.toJson, .array records]

variable (comparison : Comparison) (target : Cursor)

theorem continues_tag : Json.Continues ('"' :: ((Kind.branch comparison).tag.toList ++ ['"']))
    [.string (some (Kind.branch comparison).tag)] := by
  have htag := Json.Text.continues_literal (Kind.branch comparison).tag
  cases comparison <;> exact htag

theorem continues_name : Json.Continues ('"' :: (target.name.toList ++ ['"'])) [.string (some target.name)] := by
  have hname := Json.Text.continues_literal target.name
  cases target <;> exact hname

theorem parse?_conditionalText {items : List (String × Json)} (h : ∀ item ∈ items, Json.parse? item.1 = some item.2) :
    Json.parse? (conditionalText comparison target (items.map Prod.fst)) =
      some (conditionalRecord comparison target (items.map Prod.snd)) := by
  -- From the end to the beginning: what stands behind a value is what is known to follow it.
  have hbody := (Json.continues_member "body" (Json.spells_array h)).append Json.continues_closeObject
  have htarget := Json.continues_member "target"
    ((continues_name target).append (hbody.spells.punctuation ',' .comma rfl)).spells
  have htype := Json.continues_member "type"
    ((continues_tag comparison).append (htarget.spells.punctuation ',' .comma rfl)).spells
  have hrecord := htype.spells.punctuation '\x7b' .openObject rfl
  rw [Json.parse?_eq_some_iff]
  convert hrecord.spells using 1
  · unfold conditionalText
    simp only [String.toList_append, List.append_assoc, List.cons_append]
    rfl
  · simp only [conditionalRecord, Cursor.toJson, Kind.record, Kind.operands, Json.record, Json.tokens,
      Json.memberTokens, Json.moreMemberTokens, Json.text, List.zip_cons_cons, List.zip_nil_right, List.map_cons,
      List.map_nil, List.append_nil, List.cons_append, List.nil_append, List.append_assoc]

theorem ofRecord?_conditionalRecord (inBody : Bool) {records : List Json} {block : Block}
    (h : records.mapM (ofRecord? true) = some block) :
    ofRecord? inBody (conditionalRecord comparison target records) = some (.branch comparison target block) := by
  refine (ofFields?_members inBody (.branch comparison) rfl).trans ?_
  rw [ofOperands?_branch_eq_some_iff]
  exact ⟨target.toJson, records, target, block, rfl, target.ofJson?_toJson, h, rfl⟩

theorem isValid_conditionalRecord {records : List Json} (h : ∀ record ∈ records, record.IsValid) :
    (conditionalRecord comparison target records).IsValid := by
  refine .record fun member hmember => ?_
  rcases List.mem_cons.1 hmember with rfl | hmember
  · exact .text _
  · rcases List.mem_cons.1 hmember with rfl | hmember
    · exact .text _
    · obtain rfl := List.mem_singleton.1 hmember
      exact .array h

end Instruction

/-! ## Loading -/

namespace Program

/-- A text that makes a program of one instruction is the text of a record of that instruction. -/
theorem exists_record_of_load {text : String} {i : Instruction} (h : load ("[" ++ text ++ "]") = .ok ⟨[i]⟩) :
    ∃ record, Json.parse? text = some record ∧ record.IsValid ∧ Instruction.ofRecord? false record = some i := by
  obtain ⟨j, hparse, -, -⟩ := load_eq_ok_iff.1 h
  obtain ⟨hvalid, hj⟩ := isValid_of_load h hparse
  obtain ⟨items, rfl, hitems⟩ := ofJson?_eq_some_iff.1 hj
  rcases items with _ | ⟨record, _ | ⟨second, items⟩⟩
  · cases hitems
  · obtain ⟨first, rest, hfirst, hrest, heq⟩ := mapM_cons_eq_some_iff.1 hitems
    cases heq
    exact ⟨record, Json.parse?_of_brackets hparse, Json.isValid_array_iff.1 hvalid record List.mem_cons_self, hfirst⟩
  · obtain ⟨first, rest, -, hrest, heq⟩ := mapM_cons_eq_some_iff.1 hitems
    obtain ⟨next, rest', -, -, rfl⟩ := mapM_cons_eq_some_iff.1 hrest
    cases heq

/-- Texts that make programs of one instruction each are texts of records, which a body may hold. -/
theorem exists_records_of_load : ∀ {records : List (String × Instruction)},
    (∀ r ∈ records, load ("[" ++ r.1 ++ "]") = .ok ⟨[r.2]⟩) →
      ∃ items : List (String × Json), items.map Prod.fst = records.map Prod.fst ∧
        (∀ item ∈ items, Json.parse? item.1 = some item.2 ∧ item.2.IsValid) ∧
        (items.map Prod.snd).mapM (Instruction.ofRecord? true) = some (records.map Prod.snd)
  | [], _ => ⟨[], rfl, fun _ h => absurd h List.not_mem_nil, rfl⟩
  | (text, i) :: records, h => by
    obtain ⟨record, hparse, hvalid, hi⟩ := exists_record_of_load (h (text, i) List.mem_cons_self)
    obtain ⟨items, htexts, hitems, hblock⟩ := exists_records_of_load fun r hr => h r (List.mem_cons_of_mem _ hr)
    refine ⟨(text, record) :: items, by simp [htexts], List.forall_mem_cons.2 ⟨⟨hparse, hvalid⟩, hitems⟩, ?_⟩
    exact mapM_cons_eq_some_iff.2 ⟨i, records.map Prod.snd, Instruction.ofRecord?_inBody hi, hblock, rfl⟩

/-- **Bodies are read like programs.** Let each of these texts make a program of one instruction. The conditional with
the records of these texts as its body is a text too; alone it makes a program of one instruction, whose body holds
the instructions in order. In any program that loads, this record may be put in the place of another: as long as the
whole nests within the limit, each text of the result loads, as the program with this conditional at that place. The
conditional counts one more instruction than its body. -/
theorem load_conditionalText {records : List (String × Instruction)} (comparison : Comparison) (target : Cursor)
    (h : ∀ r ∈ records, load ("[" ++ r.1 ++ "]") = .ok ⟨[r.2]⟩) :
    let text := Instruction.conditionalText comparison target (records.map Prod.fst)
    let i := Instruction.branch comparison target (records.map Prod.snd)
    ∃ record, Json.parse? text = some record ∧
      (record.depth + 1 ≤ 127 → load ("[" ++ text ++ "]") = .ok ⟨[i]⟩) ∧
      (∀ (place : Place) (other : Json) (before : String) (p : Program),
        Json.parse? before = some (place.fill other) → load before = .ok p → (place.fill record).depth ≤ 127 →
          (∃ after, Json.parse? after = some (place.fill record)) ∧
          (∀ after, Json.parse? after = some (place.fill record) → load after = .ok (p.replace i place.path)) ∧
          (p.replace i place.path).at? place.path = some i) ∧
      i.count = 1 + (records.map fun r => r.2.count).sum ∧
      instructionCount ⟨[i]⟩ = 1 + (records.map fun r => r.2.count).sum := by
  intro text i
  obtain ⟨items, htexts, hitems, hblock⟩ := exists_records_of_load h
  let record := Instruction.conditionalRecord comparison target (items.map Prod.snd)
  have hparse : Json.parse? text = some record := by
    have hconditional := Instruction.parse?_conditionalText comparison target fun item hitem => (hitems item hitem).1
    rwa [htexts] at hconditional
  have hvalid : record.IsValid := by
    refine Instruction.isValid_conditionalRecord comparison target fun value hvalue => ?_
    obtain ⟨item, hitem, rfl⟩ := List.mem_map.1 hvalue
    exact (hitems item hitem).2
  have hi : ∀ inBody, Instruction.ofRecord? inBody record = some i := fun inBody =>
    Instruction.ofRecord?_conditionalRecord comparison target inBody hblock
  have hcount : i.count = 1 + (records.map fun r => r.2.count).sum := by
    rw [Instruction.count, Instruction.countBlock_eq_sum, List.map_map]
    rfl
  refine ⟨record, hparse, fun hdepth => ?_, fun place other before p hbefore hload hdepth => ?_, hcount, hcount⟩
  · have hprogram : Json.parse? ("[" ++ text ++ "]") = some (.array [record]) := by
      have harray : ∀ item ∈ [(text, record)], Json.parse? item.1 = some item.2 := by simpa using hparse
      simpa [Json.parse?_eq_some_iff] using Json.spells_array harray
    refine load_of_isValid hprogram (.array (by simpa using hvalid)) ?_ ?_
    · simpa [Json.depth, Json.itemsDepth, Nat.add_comm] using hdepth
    · simp [ofJson?_eq_some_iff, hi]
  · obtain ⟨hfill, hj⟩ := isValid_of_load hload hbefore
    have hfilled := (place.isValid_fill hfill).2 record hvalid
    obtain ⟨-, -, -, hreplace⟩ := place.ofJson?_fill hj
    have hj' := hreplace record i (hi _)
    refine ⟨⟨_, Json.parse?_compact hfilled⟩, fun after hafter => load_of_isValid hafter hfilled hdepth hj', ?_⟩
    -- The changed program has a record at the place as well, so the path leads to its instruction.
    obtain ⟨i', hi', hat, -⟩ := place.ofJson?_fill hj'
    rw [hat, ← hi', hi]

/-- A record with a blank before it and one of a type that is not listed make the body of a conditional, which makes a
program, and which comes in the place of the one record in the body of another conditional. -/
theorem load_conditionalText_nested :
    let records : List (String × Instruction) :=
      [(" \x7b\"type\":\"SWAP\"\x7d", .op .swap), ("[\"FLY\"]", .op .unknown)]
    let text := "\x7b\"type\":\"IF_LESS\",\"target\":\"CHOCO\",\"body\":[ \x7b\"type\":\"SWAP\"\x7d,[\"FLY\"]]\x7d"
    let i := Instruction.branch .less .choco [.op .swap, .op .unknown]
    (∀ r ∈ records, load ("[" ++ r.1 ++ "]") = .ok ⟨[r.2]⟩) ∧ load ("[" ++ text ++ "]") = .ok ⟨[i]⟩ ∧
      (∃ after, load after = .ok ⟨[.branch .equal .moco [i]]⟩) ∧ i.count = 3 := by
  intro records text i
  have hrecords : ∀ r ∈ records, load ("[" ++ r.1 ++ "]") = .ok ⟨[r.2]⟩ := by decide +kernel
  obtain ⟨record, hparse, halone, hplaced, hcount, -⟩ := load_conditionalText .less .choco hrecords
  have hdepth : record.depth = 3 := by
    have hnesting : Json.nesting? text = some 3 := by decide +kernel
    exact Option.some.inj ((Json.nesting?_of_parse? hparse).symm.trans hnesting)
  let shell : Instruction.Shell :=
    .object .equal [(some "type", .text "IF_EQUAL"), (some "target", .text "MOCO")] [] (by decide)
  let place : Place := .body (.top [] []) shell [] []
  have hvalid : (place.fill (.array [.text "WAIT"])).IsValid := by
    simp [place, shell, Place.fill, Instruction.Shell.wrap, Json.isValid_array_iff, Json.isValid_object_iff,
      Json.IsValid.text]
  have hload : load (place.fill (.array [.text "WAIT"])).compact = .ok ⟨[.branch .equal .moco [.op .wait]]⟩ := by
    decide +kernel
  have hfits : (place.fill record).depth ≤ 127 := by
    simp [place, shell, Place.fill, Instruction.Shell.wrap, Json.depth, Json.itemsDepth, Json.membersDepth, Json.text,
      hdepth]
  obtain ⟨⟨after, hafter⟩, hloads, -⟩ := hplaced place _ _ _ (Json.parse?_compact hvalid) hload hfits
  exact ⟨hrecords, halone (by omega), ⟨after, hloads after hafter⟩, hcount⟩

end Program

end SeatMachine
