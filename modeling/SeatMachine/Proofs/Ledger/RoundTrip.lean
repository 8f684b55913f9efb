import SeatMachine.Ledger.Record
import SeatMachine.Proofs.Json.Layout
/-!
# Ledgers survive being written

An entry is the entry of its record, whatever it does not know (`Entry.ofJson?_toJson`). The entries of a
ledger are written in ascending order of their ids, so adding them one after the other puts each behind those
before it (`addMembers?_append`), and nothing is lost or replaced. Hence a ledger that is written to a file is
read back as it was: `read?_write`.
-/
namespace SeatMachine.Ledger

/-! ## Entries -/

theorem Entry.ofJson?_toJson (e : Entry) : Entry.ofJson? e.toJson = some e := by
  obtain ⟨id, completed, best, time⟩ := e
  cases best <;> cases time <;>
    simp [toJson, Entry.ofJson?, ofMembers?, optionalField, Json.record, Json.areNamed, Json.field?,
      Json.fieldOr?, Json.fieldsNamed, Json.toBool?]

theorem Entry.isRegular_toJson (e : Entry) : Json.IsRegular e.toJson := by
  have hoptional : ∀ (name : String) (n : Option UInt64),
      ∀ member ∈ optionalField name n, Json.IsRegular member.2 := by
    intro name n member hmember
    cases n with
    | none => cases hmember
    | some n =>
      obtain rfl := List.mem_singleton.1 hmember
      exact Json.isRegular_nat n
  refine .record fun member hmember => ?_
  rw [List.mem_append, List.mem_append] at hmember
  rcases hmember with (hmember | hmember) | hmember
  · rcases List.mem_cons.1 hmember with rfl | hmember
    · exact .text _
    · obtain rfl := List.mem_singleton.1 hmember
      exact .bool _
  · exact hoptional _ _ member hmember
  · exact hoptional _ _ member hmember

/-! ## Ledgers -/

@[ext]
theorem ext {l l' : Ledger} (h : l.entries = l'.entries) : l = l' := by
  cases l
  cases l'
  simpa using h

/-- An id beyond all others goes to the end. -/
theorem insertEntry_of_lt {id : String} (e : Entry) : ∀ {entries : List (String × Entry)},
    (∀ x ∈ entries, x.1 < id) → insertEntry id e entries = entries ++ [(id, e)]
  | [], _ => rfl
  | (id', e') :: rest, h => by
    have hlt : id' < id := h (id', e') List.mem_cons_self
    have hge : ¬ id < id' := fun hgt => String.lt_irrefl _ (String.lt_trans hlt hgt)
    have hrest := insertEntry_of_lt e fun x hx => h x (List.mem_cons_of_mem _ hx)
    rw [insertEntry, if_neg hge, if_pos hlt, hrest]
    rfl

/-- Members in ascending order, all beyond the entries so far, are put behind them. -/
theorem addMembers?_append : ∀ {members : List (String × Entry)} {l : Ledger},
    (l.entries ++ members).Pairwise (fun a b => a.1 < b.1) →
      ∃ l', addMembers? l (members.map fun m => (some m.1, m.2.toJson)) = some l' ∧
        l'.entries = l.entries ++ members
  | [], l, _ => ⟨l, rfl, by simp⟩
  | (id, e) :: members, l, h => by
    have hlt : ∀ x ∈ l.entries, x.1 < id := fun x hx =>
      (List.pairwise_append.1 h).2.2 x hx (id, e) List.mem_cons_self
    have hentries : (l.insert id e).entries = l.entries ++ [(id, e)] := insertEntry_of_lt e hlt
    have hsorted : ((l.insert id e).entries ++ members).Pairwise fun a b => a.1 < b.1 := by
      rw [hentries, List.append_assoc]
      exact h
    obtain ⟨l', hadd, hl'⟩ := addMembers?_append hsorted
    refine ⟨l', ?_, ?_⟩
    · simpa [addMembers?, Entry.ofJson?_toJson] using hadd
    · rw [hl', hentries, List.append_assoc]
      rfl

theorem ofJson?_toJson (l : Ledger) : ofJson? l.toJson = some l := by
  have hsorted : (empty.entries ++ l.entries).Pairwise fun a b => a.1 < b.1 := l.sorted
  obtain ⟨l', hadd, hl'⟩ := addMembers?_append hsorted
  have hmembers : l.toJson = .object (l.entries.map fun m => (some m.1, m.2.toJson)) := by
    simp [toJson, Json.record]
  rw [hmembers, ofJson?, hadd, ext hl']

theorem isRegular_toJson (l : Ledger) : Json.IsRegular l.toJson := by
  refine .record fun member hmember => ?_
  obtain ⟨⟨id, e⟩, -, rfl⟩ := List.mem_map.1 hmember
  exact e.isRegular_toJson

/-- A ledger file is read back as the ledger that was written to it. -/
theorem read?_write (l : Ledger) : read? l.write = some l := by
  rw [read?, write, Json.parse?_indented l.isRegular_toJson, Option.bind_some, ofJson?_toJson]

end SeatMachine.Ledger
