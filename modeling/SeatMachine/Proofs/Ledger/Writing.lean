import Mathlib.Data.List.Sort
import SeatMachine.Proofs.Ledger.Durability
/-!
# What a ledger is written as

The entries of a ledger are sorted by their ids, so a ledger is no more than what it finds under each id:
`eq_of_get?`. Hence equal ledgers are written alike, in both layouts, with the ids in the order of their code points
(`pairwise_codePoints`). Either text is read back as the ledger, from a file as well: `load_save`.
-/
namespace SeatMachine.Ledger

variable {l l' : Ledger}

/-! ## Ledgers as maps -/

/-- What is found under an id is what the entries hold. -/
theorem get?_eq_some_iff {id : String} {e : Entry} : l.get? id = some e ↔ (id, e) ∈ l.entries := by
  rw [get?, List.lookup_eq_some_iff]
  constructor
  · rintro ⟨before, after, heq, -⟩
    rw [heq]
    exact List.mem_append_right _ List.mem_cons_self
  · intro h
    obtain ⟨before, after, heq⟩ := List.append_of_mem h
    refine ⟨before, after, heq, fun other hother => ?_⟩
    have hsorted := l.sorted
    rw [heq, List.pairwise_append] at hsorted
    have hlt : other.1 < id := hsorted.2.2 other hother (id, e) List.mem_cons_self
    exact bne_iff_ne.2 (String.ne_of_lt hlt).symm

/-- Ledgers with the same entry under each id are equal. -/
theorem eq_of_get? (h : ∀ id, l.get? id = l'.get? id) : l = l' := by
  have hirrefl : Std.Irrefl fun a b : String × Entry => a.1 < b.1 := ⟨fun a => String.lt_irrefl a.1⟩
  have hantisymm : Std.Antisymm fun a b : String × Entry => a.1 < b.1 :=
    ⟨fun a b hab hba => absurd (String.lt_trans hab hba) (String.lt_irrefl a.1)⟩
  refine ext (l.sorted.eq_of_mem_iff l'.sorted fun entry => ?_)
  rw [← get?_eq_some_iff, ← get?_eq_some_iff, h]

/-! ## Ids in order -/

def codePoints (s : String) : List Nat :=
  s.toList.map Char.toNat

theorem codePoints_lt {s t : String} (h : s < t) : codePoints s < codePoints t :=
  List.map_lt (fun _ _ hlt => hlt) (String.lt_iff.1 h)

theorem pairwise_codePoints (l : Ledger) :
    (l.entries.map fun entry => codePoints entry.1).Pairwise fun a b => a < b := by
  rw [List.pairwise_map]
  exact l.sorted.imp codePoints_lt

/-! ## Texts -/

theorem read?_writeCompact (l : Ledger) : read? l.writeCompact = some l := by
  rw [read?, writeCompact, Json.parse?_compact l.isRegular_toJson.isValid, Option.bind_some, ofJson?_toJson]

theorem load_put {folder : Folder} {path : String} {place : Folder.Place} (h : folder.Names path place) {text : String}
    (hread : read? text = some l) : load (folder.put place (.file text.toUTF8)) path = .ok l :=
  load_of_kept (h.put _) ((kept?_put_text h text).trans hread)

/-- **Ledgers come back.** Both texts of a ledger, that of its file and that on one line, are read back as that ledger.
Saved at any path that names a place for a file, the ledger is found there again, and so it is if the file holds the
text on one line. Both texts hold the same members in the same order, one for each id, with the code points of
the ids strictly ascending; and a ledger with the same entries is written as the same texts. -/
theorem load_save (l : Ledger) :
    read? l.write = some l ∧ read? l.writeCompact = some l ∧
    (∀ (folder : Folder) (path : String) (place : Folder.Place), folder.Names path place →
      (∃ folder', l.save folder path = .ok folder' ∧ folder'.readText path = .ok l.write ∧
        load folder' path = .ok l) ∧
      load (folder.put place (.file l.writeCompact.toUTF8)) path = .ok l) ∧
    (∃ members : List (String × Json),
      Json.parse? l.write = some (.record members) ∧ Json.parse? l.writeCompact = some (.record members) ∧
      (∀ id, id ∈ members.map Prod.fst ↔ ∃ e, l.get? id = some e) ∧
      (members.map fun member => codePoints member.1).Pairwise fun a b => a < b) ∧
    ∀ l' : Ledger, (∀ id, l'.get? id = l.get? id) → l'.write = l.write ∧ l'.writeCompact = l.writeCompact := by
  refine ⟨l.read?_write, l.read?_writeCompact, fun folder path place h => ⟨?_, ?_⟩, ?_, fun l' h => ?_⟩
  · refine ⟨folder.put place (.file l.write.toUTF8), ?_, ?_, load_put h l.read?_write⟩
    · rw [save, Folder.writeText_of_names h]
    · exact Folder.readText_of_names (h.put _) (h.isFree.node?_put _)
  · exact load_put h l.read?_writeCompact
  · let members : List (String × Json) := l.entries.map fun entry => (entry.1, entry.2.toJson)
    refine ⟨members, Json.parse?_indented l.isRegular_toJson, Json.parse?_compact l.isRegular_toJson.isValid, ?_, ?_⟩
    · intro id
      simp [members, get?_eq_some_iff]
    · rw [List.map_map]
      exact l.pairwise_codePoints
  · rw [eq_of_get? h]
    exact ⟨rfl, rfl⟩

/-- Ids and texts of all kinds, the empty one, quotes, control characters and characters beyond 16 bits, with the
greatest numbers and with none: the ledger is loaded from the file that it was saved to. -/
theorem load_save_any_text :
    let l : Ledger :=
      ⟨[("", ⟨"\"\\\n", true, some 18446744073709551615, none⟩), ("\x00\"", .blank ""),
        ("é", ⟨"z", false, none, some 0⟩), ("\uffff", .blank "/"),
        ("😀", ⟨"", true, some 0, some 18446744073709551615⟩)], by decide⟩
    ∃ folder, l.save .empty "progress.json" = .ok folder ∧ load folder "progress.json" = .ok l := by
  intro l
  have hname : Folder.IsPlainName "progress.json" :=
    ⟨by decide, by decide, by decide, by decide, by decide, by decide⟩
  obtain ⟨-, -, hfiles, -⟩ := load_save l
  obtain ⟨⟨folder, hsave, -, hload⟩, -⟩ := hfiles .empty "progress.json" _ (hname.names (Or.inl rfl))
  exact ⟨folder, hsave, hload⟩

end SeatMachine.Ledger
