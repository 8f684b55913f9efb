import Mathlib.Data.String.Basic
import SeatMachine.Folder
import SeatMachine.Proofs.General
/-!
# What a path names

A path names a place for a file if the directory it leads to stands and at the place there is a file or nothing
yet: `Names`. Such a file can be read and written (`read_of_names`, `writeText_of_names`), and whatever is put
there, the path still names the place, because no directory on the way was touched (`Names.put`). These are
the only paths that writing leaves a trace of: `names_of_writeText`.
-/
namespace SeatMachine.Folder

variable {folder folder' : Folder} {place other : Place} {node : Node} {path text : String}

/-! ## Putting -/

theorem node?_put_of_ne (h : other ≠ place) (folder : Folder) (node : Node) :
    (folder.put place node).node? other = folder.node? other := by
  unfold node? put
  rw [lookup_cons_of_ne h, lookup_filter_of_ne h]

/-- No file stands anywhere whatever the folder holds. -/
theorem standing?_ne_file (place : Place) (content : ByteArray) : standing? place ≠ some (.file content) := by
  intro h
  unfold standing? at h
  split at h
  · cases h
  · split at h <;> cases h
  · cases h
  · split at h <;> cases h

/-- At the place there is a file or nothing. -/
def IsFree (folder : Folder) (place : Place) : Prop :=
  folder.node? place = none ∨ ∃ content, folder.node? place = some (.file content)

theorem IsFree.standing?_eq (h : folder.IsFree place) : standing? place = none := by
  cases hs : standing? place with
  | none => rfl
  | some standing =>
    rcases h with h | ⟨content, h⟩
    · simp [node?, hs] at h
    · simp only [node?, hs] at h
      exact absurd (hs.trans h) (standing?_ne_file place content)

theorem IsFree.node?_put (h : folder.IsFree place) (content : ByteArray) :
    (folder.put place (.file content)).node? place = some (.file content) := by
  simp [node?, h.standing?_eq, put]

theorem IsFree.ne_of_directory (h : folder.IsFree place) (hd : folder.node? other = some .directory) :
    other ≠ place := by
  rintro rfl
  rcases h with h | ⟨content, h⟩
  · rw [h] at hd; cases hd
  · rw [h] at hd; cases hd

/-! ## Walking -/

/-- A way through directories does not lead over a place that is free. -/
theorem walk_put (h : folder.IsFree place) (content : ByteArray) : ∀ {names : List String} {start directory : Place},
    folder.walk start names = .ok directory →
      (folder.put place (.file content)).walk start names = .ok directory
  | [], _, _, hw => hw
  | name :: names, start, directory, hw => by
    rw [walk] at hw ⊢
    cases hc : child start name with
    | error fault => rw [hc] at hw; cases hw
    | ok next =>
      rw [hc] at hw
      dsimp only at hw ⊢
      split at hw
      · cases hw
      · rename_i hd
        rw [node?_put_of_ne (h.ne_of_directory hd), hd]
        exact walk_put h content hw
      · cases hw
      · cases hw
      · cases hw

/-! ## Paths -/

/-- The path leads through directories to a place for a file. -/
structure Names (folder : Folder) (path : String) (place : Place) : Prop where
  leads : ∃ p directory, Path.ofString path = .ok p ∧ p.endsInSlash = false ∧
    folder.around p = .ok directory ∧ leaf directory p = .ok place
  isFree : folder.IsFree place

/-- A name is a name in the working directory: it has no slash, does not lead elsewhere, and is not too long. -/
structure IsPlainName (name : String) : Prop where
  ne_empty : name ≠ ""
  ne_here : name ≠ "."
  ne_above : name ≠ ".."
  no_slash : '/' ∉ name.toList
  no_null : '\x00' ∉ name.toList
  size_le : name.utf8ByteSize ≤ Path.maxName

theorem IsPlainName.ofString_eq {name : String} (h : IsPlainName name) :
    Path.ofString name = .ok ⟨false, [name], false⟩ := by
  have hsplit : name.splitToList (· == '/') = [name] := by
    have hnone : ∀ c ∈ name.toList, (c == '/') = false := by
      intro c hc
      have hne : c ≠ '/' := fun e => h.no_slash (e ▸ hc)
      simpa using hne
    rw [String.splitToList_of_valid, List.splitOnP_eq_singleton hnone]
    simp
  have hsize : ¬ Path.maxLength < name.utf8ByteSize := by
    have hle := h.size_le
    simp only [Path.maxName, Path.maxLength] at hle ⊢
    omega
  have hhead : name.toList.head? ≠ some '/' := fun e => h.no_slash (List.mem_of_mem_head? e)
  have hlast : name.toList.getLast? ≠ some '/' := fun e => h.no_slash (List.mem_of_getLast? e)
  simp [Path.ofString, h.no_null, h.ne_empty, hsize, hsplit, hhead, hlast]

/-- A plain name names a place in the working directory. -/
theorem IsPlainName.names {name : String} (h : IsPlainName name) (hfree : folder.IsFree [name]) :
    folder.Names name [name] := by
  have hsize : ¬ Path.maxName < name.utf8ByteSize := Nat.not_lt.2 h.size_le
  refine ⟨⟨_, [], h.ofString_eq, rfl, rfl, ?_⟩, hfree⟩
  simp [leaf, child, h.ne_here, h.ne_above, hsize]

def content? (folder : Folder) (place : Place) : Option ByteArray :=
  match folder.node? place with
  | some (.file content) => some content
  | _ => none

theorem read_of_names (h : folder.Names path place) :
    folder.read path =
      match folder.content? place with
      | none => .error .notFound
      | some content => .ok content := by
  obtain ⟨⟨p, directory, hpath, hslash, haround, hleaf⟩, hfree⟩ := h
  have hlocate : folder.locate p = .ok place := by simp [locate, haround, hleaf]
  rcases hfree with hnode | ⟨content, hnode⟩
  · simp [read, hpath, hlocate, hnode, content?, bind, Except.bind]
  · simp [read, hpath, hlocate, hnode, content?, hslash, bind, Except.bind]

theorem writeText_of_names (h : folder.Names path place) (text : String) :
    folder.writeText path text = .ok (folder.put place (.file text.toUTF8)) := by
  obtain ⟨⟨p, directory, hpath, hslash, haround, hleaf⟩, hfree⟩ := h
  rcases hfree with hnode | ⟨content, hnode⟩
  · simp [writeText, hpath, haround, hslash, hleaf, hnode, bind, Except.bind]
  · simp [writeText, hpath, haround, hslash, hleaf, hnode, bind, Except.bind]

/-- A path names the same place after a file was put there. -/
theorem Names.put (h : folder.Names path place) (content : ByteArray) :
    (folder.put place (.file content)).Names path place := by
  obtain ⟨⟨p, directory, hpath, hslash, haround, hleaf⟩, hfree⟩ := h
  refine ⟨⟨p, directory, hpath, hslash, walk_put hfree content haround, hleaf⟩, ?_⟩
  exact Or.inr ⟨content, hfree.node?_put content⟩

theorem Names.content?_put (h : folder.Names path place) (content : ByteArray) :
    (folder.put place (.file content)).content? place = some content := by
  simp [content?, h.isFree.node?_put]

theorem readText_of_names (h : folder.Names path place) (hnode : folder.node? place = some (.file text.toUTF8)) :
    folder.readText path = .ok text := by
  have hcontent : folder.content? place = some text.toUTF8 := by simp only [content?, hnode]
  rw [readText, read_of_names h, hcontent]
  dsimp only
  rw [fromUTF8?_toUTF8]

/-- Writing leaves a trace only at a place that the path names. -/
theorem names_of_writeText (h : folder.writeText path text = .ok folder') :
    folder' = folder ∨
      ∃ place, folder.Names path place ∧ folder' = folder.put place (.file text.toUTF8) := by
  obtain ⟨p, hpath, h⟩ := exists_of_bind_eq_ok h
  obtain ⟨directory, haround, h⟩ := exists_of_bind_eq_ok h
  by_cases hslash : p.endsInSlash = true
  · rw [if_pos hslash] at h
    cases h
  · rw [if_neg hslash] at h
    obtain ⟨place, hleaf, h⟩ := exists_of_bind_eq_ok h
    have hleads : ∃ p directory, Path.ofString path = .ok p ∧ p.endsInSlash = false ∧
        folder.around p = .ok directory ∧ leaf directory p = .ok place :=
      ⟨p, directory, hpath, Bool.eq_false_iff.2 hslash, haround, hleaf⟩
    split at h
    · cases h
    · cases h
    · cases h
      exact Or.inl rfl
    · rename_i content hnode
      cases h
      exact Or.inr ⟨place, ⟨hleads, Or.inr ⟨content, hnode⟩⟩, rfl⟩
    · rename_i hnode
      cases h
      exact Or.inr ⟨place, ⟨hleads, Or.inl hnode⟩, rfl⟩

end SeatMachine.Folder
