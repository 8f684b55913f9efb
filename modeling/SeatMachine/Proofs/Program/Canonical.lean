import Mathlib.Data.List.Basic
import SeatMachine.Proofs.Instruction.Record
import SeatMachine.Proofs.Json.Reading
import SeatMachine.Proofs.Program.RoundTrip
/-!
# Every program that loads can be written and loaded again

A text may write a program in many ways. The text that is written for the program is one of them, and it never nests
deeper than the one that was loaded: a record needs one array or object for itself and one for its body, however it
is written (`depth_toJson_le`). So it is within the limit if the first text was: `load_write_of_load`.
-/
namespace SeatMachine

/-! ## Depth -/

namespace Json

theorem depth_le_itemsDepth {item : Json} : ∀ {items : List Json}, item ∈ items → item.depth ≤ itemsDepth items
  | first :: items, h => by
    rw [itemsDepth]
    rcases List.mem_cons.1 h with rfl | h
    · exact Nat.le_max_left _ _
    · exact Nat.le_trans (depth_le_itemsDepth h) (Nat.le_max_right _ _)

theorem depth_le_membersDepth {member : Option String × Json} :
    ∀ {members : List (Option String × Json)}, member ∈ members → member.2.depth ≤ membersDepth members
  | (name, value) :: members, h => by
    rw [membersDepth]
    rcases List.mem_cons.1 h with rfl | h
    · exact Nat.le_max_left _ _
    · exact Nat.le_trans (depth_le_membersDepth h) (Nat.le_max_right _ _)

end Json

namespace Instruction

/-- The operands stand inside the record. -/
theorem Gives.depth_lt {inBody : Bool} {j : Json} {kind : Kind} {values : List Json}
    (h : Gives inBody j kind values) : ∀ value ∈ values, value.depth < j.depth := by
  intro value hvalue
  cases h with
  | @items tag _ _ htag =>
    have hle := Json.depth_le_itemsDepth (List.mem_cons_of_mem tag hvalue)
    rw [Json.depth]
    omega
  | fields htype htag hvalues =>
    obtain ⟨name, -, hname⟩ := mem_of_mapM hvalues hvalue
    have hle : value.depth ≤ _ := Json.depth_le_membersDepth (Json.mem_of_field? hname)
    rw [Json.depth]
    omega

theorem Gives.depth_pos {inBody : Bool} {j : Json} {kind : Kind} {values : List Json}
    (h : Gives inBody j kind values) : 0 < j.depth := by
  cases h <;> rw [Json.depth] <;> omega

theorem depth_toJson_op (operation : Operation) : (toJson (.op operation)).depth = 1 := by
  cases operation <;> rfl

theorem depth_toJson_branch (comparison : Comparison) (target : Cursor) (body : Block) :
    (toJson (.branch comparison target body)).depth = 2 + Json.itemsDepth (blockToJson body) := by
  simp only [toJson, Kind.record, Kind.operands, Json.record, Json.depth, Json.membersDepth, Json.text, Cursor.toJson,
    List.zip_cons_cons, List.zip_nil_right, List.map_cons, List.map_nil]
  omega

mutual

/-- An instruction is written no deeper than the record it was read from. -/
theorem depth_toJson_le (inBody : Bool) : ∀ (i : Instruction) (j : Json), ofRecord? inBody j = some i →
    i.toJson.depth ≤ j.depth
  | .op operation, j, h => by
    obtain ⟨kind, values, hgives, -⟩ := ofRecord?_eq_some_iff.1 h
    rw [depth_toJson_op]
    exact hgives.depth_pos
  | .branch comparison target body, j, h => by
    obtain ⟨kind, values, hgives, hoperands⟩ := ofRecord?_eq_some_iff.1 h
    obtain rfl : Kind.branch comparison = kind := kind_of_ofOperands? hoperands
    obtain ⟨value, items, cursor, block, rfl, -, hitems, heq⟩ := ofOperands?_branch_eq_some_iff.1 hoperands
    cases heq
    have hbody := depth_blockToJson_le true body items hitems
    have hdepth := hgives.depth_lt (.array items) (by simp)
    rw [Json.depth] at hdepth
    rw [depth_toJson_branch]
    omega
termination_by structural i => i

theorem depth_blockToJson_le (inBody : Bool) : ∀ (block : Block) (items : List Json),
    items.mapM (ofRecord? inBody) = some block → Json.itemsDepth (blockToJson block) ≤ Json.itemsDepth items
  | [], _, _ => Nat.zero_le _
  | i :: block, [], h => by
    cases h
  | i :: block, item :: items, h => by
    obtain ⟨first, rest, hfirst, hrest, heq⟩ := mapM_cons_eq_some_iff.1 h
    cases heq
    have hitem := depth_toJson_le inBody i item hfirst
    have hitems := depth_blockToJson_le inBody block items hrest
    rw [blockToJson, Json.itemsDepth, Json.itemsDepth]
    omega
termination_by structural block => block

end

end Instruction

/-! ## Programs -/

namespace Program

/-- A program is written no deeper than the value it was read from. -/
theorem depth_toJson_le {j : Json} {p : Program} (h : ofJson? j = some p) : p.toJson.depth ≤ j.depth := by
  obtain ⟨items, rfl, hblock⟩ := ofJson?_eq_some_iff.1 h
  have hle := Instruction.depth_blockToJson_le false p.block items hblock
  rw [toJson, Json.depth, Json.depth]
  omega

/-- **Whatever loads can be written and loaded again.** Let a text load as a program, however it is written. The
text that is written for the program loads as the same program, with the same labels at the same places, and is
written the same again; and it nests no deeper than the first text. -/
theorem load_write_of_load {text : String} {p : Program} (h : load text = .ok p) :
    (∃ q, load p.write = .ok q ∧ q = p ∧ q.resolve = p.resolve ∧ q.labelNames = p.labelNames ∧ q.write = p.write) ∧
    ∃ m n, Json.nesting? p.write = some m ∧ Json.nesting? text = some n ∧ m ≤ n := by
  obtain ⟨j, hparse, hacceptable, hj⟩ := load_eq_ok_iff.1 h
  have hdepth := depth_toJson_le hj
  have hlimit : j.depth ≤ Json.maxDepth := by
    rw [Json.isAcceptable, Bool.and_eq_true, decide_eq_true_eq] at hacceptable
    exact hacceptable.2
  have hvalid : p.toJson.IsValid := p.isRegular_toJson.isValid
  have hwritten : Json.parse? p.write = some p.toJson := Json.parse?_compact hvalid
  have hwithin : p.toJson.isAcceptable = true := by
    rw [hvalid.isAcceptable, decide_eq_true_eq]
    exact Nat.le_trans hdepth hlimit
  have hload : load p.write = .ok p := load_eq_ok_iff.2 ⟨p.toJson, hwritten, hwithin, p.ofJson?_toJson⟩
  exact ⟨⟨p, hload, rfl, rfl, rfl, rfl⟩, p.toJson.depth, j.depth, Json.nesting?_of_parse? hwritten,
    Json.nesting?_of_parse? hparse, hdepth⟩

/-- A text with records in both forms, a cursor given by an object, types given by their numbers and data of an
editor: it can be written and loaded again. -/
theorem load_write_of_load_mixed :
    let text := "[[\"LABEL\", \"go\"],\n \x7b\"line\": 2, \"body\": [\x7b\"type\": 6, \"target\": \"MOCO\"\x7d, [\"FLY\"]," ++
      " \x7b\"type\": 20, \"width\": 1.5e3\x7d], \"target\": \x7b\"CHOCO\": null\x7d, \"type\": \"IF_LESS\"\x7d]"
    let p : Program := ⟨[.op (.label "go"), .branch .less .choco [.op (.put .moco), .op .unknown, .op .unknown]]⟩
    load text = .ok p ∧ load p.write = .ok p := by
  intro text p
  have hload : load text = .ok p := by decide +kernel
  obtain ⟨⟨q, hq, rfl, -⟩, -⟩ := load_write_of_load hload
  exact ⟨hload, hq⟩

end Program

end SeatMachine
