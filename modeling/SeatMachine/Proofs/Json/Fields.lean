import SeatMachine.Json.Fields
/-!
# Fields by name

All that is read from the members of an object is `fieldsNamed`, the values under one name. Members of other names
make no difference to it (`fieldsNamed_insert_of_ne`), nor does the order of the members if the name occurs once at
most (`fieldsNamed_perm`). From this it follows what each way of reading a field finds: a field that must occur
(`field?`), one that may be left out (`fieldOr?`), and the fields of a whole record (`mapM_field?_zip`).
-/
namespace SeatMachine.Json

variable {α β : Type} {name : String} {fields fields' : List (Option String × α)} {value : α}

/-! ## All fields of a name -/

theorem fieldsNamed_insert_of_ne {other : String} (h : other ≠ name) (before after : List (Option String × α))
    (value : α) : fieldsNamed name (before ++ (some other, value) :: after) = fieldsNamed name (before ++ after) := by
  simp [fieldsNamed, h]

theorem fieldsNamed_insert_self (before after : List (Option String × α)) (value : α) :
    fieldsNamed name (before ++ (some name, value) :: after) =
      fieldsNamed name before ++ value :: fieldsNamed name after := by
  simp [fieldsNamed]

theorem fieldsNamed_append (before after : List (Option String × α)) :
    fieldsNamed name (before ++ after) = fieldsNamed name before ++ fieldsNamed name after := by
  simp [fieldsNamed]

/-- In another order, a field that occurs once at most is the same. -/
theorem fieldsNamed_perm (h : fields.Perm fields') (hlength : (fieldsNamed name fields).length ≤ 1) :
    fieldsNamed name fields' = fieldsNamed name fields := by
  have hnamed : (fieldsNamed name fields).Perm (fieldsNamed name fields') := (h.filter _).map _
  match hfields : fieldsNamed name fields, hlength with
  | [], _ => exact (hfields ▸ hnamed).symm.eq_nil
  | [value], _ => exact List.perm_singleton.1 (hfields ▸ hnamed).symm

theorem fieldsNamed_eq_nil {fields : List (String × α)} (h : name ∉ fields.map Prod.fst) :
    fieldsNamed name (fields.map fun field => (some field.1, field.2)) = [] := by
  induction fields with
  | nil => rfl
  | cons field fields ih =>
    rw [List.map_cons, List.mem_cons, not_or] at h
    simpa [fieldsNamed, Ne.symm h.1] using ih h.2

/-! ## Fields that must occur -/

theorem field?_eq_some_iff : field? name fields = some value ↔ fieldsNamed name fields = [value] := by
  unfold field?
  split
  · next h => simp [h]
  · next h =>
    constructor
    · intro hnone
      cases hnone
    · intro hone
      exact absurd hone (h value)

theorem length_fieldsNamed_of_field? (h : field? name fields = some value) : (fieldsNamed name fields).length ≤ 1 := by
  rw [field?_eq_some_iff.1 h]
  exact Nat.le_refl 1

theorem mem_of_field? (h : field? name fields = some value) : (some name, value) ∈ fields := by
  have hmem : value ∈ fieldsNamed name fields := by rw [field?_eq_some_iff.1 h]; exact List.mem_cons_self
  obtain ⟨⟨other, v⟩, hfilter, rfl⟩ := List.mem_map.1 hmem
  obtain ⟨hmember, hname⟩ := List.mem_filter.1 hfilter
  rw [← eq_of_beq hname]
  exact hmember

theorem field?_perm (h : fields.Perm fields') (hfield : field? name fields = some value) :
    field? name fields' = some value := by
  rwa [field?_eq_some_iff, fieldsNamed_perm h (length_fieldsNamed_of_field? hfield), ← field?_eq_some_iff]

/-- A field does not matter to those of other names. -/
theorem field?_insert_of_ne {other : String} (h : other ≠ name) (fields : List (Option String × α)) (value : α)
    (fields' : List (Option String × α)) :
    field? name (fields ++ (some other, value) :: fields') = field? name (fields ++ fields') := by
  simp only [field?, fieldsNamed_insert_of_ne h]

/-- A field is found under its name exactly if no other has that name. -/
theorem field?_insert_self {other : α} :
    field? name (fields ++ (some name, value) :: fields') = some other ↔
      fieldsNamed name (fields ++ fields') = [] ∧ value = other := by
  rw [field?_eq_some_iff, fieldsNamed_insert_self, fieldsNamed_append, List.append_eq_singleton_iff,
    List.append_eq_nil_iff]
  constructor
  · rintro (⟨hbefore, hafter⟩ | ⟨-, hafter⟩)
    · obtain ⟨hvalue, hafter⟩ := List.cons.inj hafter
      exact ⟨⟨hbefore, hafter⟩, hvalue⟩
    · exact absurd hafter (List.cons_ne_nil _ _)
  · rintro ⟨⟨hbefore, hafter⟩, rfl⟩
    exact .inl ⟨hbefore, by rw [hafter]⟩

/-- Reading the values of fields changes no names. -/
theorem field?_map (f : α → β) (name : String) (fields : List (Option String × α)) :
    field? name (fields.map fun m => (m.1, f m.2)) = (field? name fields).map f := by
  have hnamed : fieldsNamed name (fields.map fun m => (m.1, f m.2)) = (fieldsNamed name fields).map f := by
    simp [fieldsNamed, List.filter_map, Function.comp_def]
  cases h : field? name fields with
  | none =>
    rw [Option.map_none, Option.eq_none_iff_forall_ne_some]
    intro v hv
    rw [field?_eq_some_iff, hnamed] at hv
    obtain ⟨w, hw, -⟩ := List.map_eq_singleton_iff.1 hv
    rw [field?_eq_some_iff.2 hw] at h
    cases h
  | some v =>
    rw [field?_eq_some_iff] at h
    rw [Option.map_some, field?_eq_some_iff, hnamed, h]
    rfl

/-- A field is found by its name if no other field has that name. -/
theorem field?_of_mem {fields : List (String × α)} (hnodup : (fields.map Prod.fst).Nodup) (h : (name, value) ∈ fields) :
    field? name (fields.map fun field => (some field.1, field.2)) = some value := by
  rw [field?_eq_some_iff]
  induction fields with
  | nil => exact absurd h List.not_mem_nil
  | cons field fields ih =>
    rw [List.map_cons, List.nodup_cons] at hnodup
    rcases List.mem_cons.mp h with rfl | htail
    · simpa [fieldsNamed] using fieldsNamed_eq_nil hnodup.1
    · have hne : field.1 ≠ name := fun heq =>
        hnodup.1 (heq ▸ List.mem_map_of_mem (f := Prod.fst) htail)
      simpa [fieldsNamed, hne] using ih hnodup.2 htail

/-- Fields are found in the order in which their names are asked for. -/
theorem mapM_field?_zip {fields : List (String × α)} (hnodup : (fields.map Prod.fst).Nodup) :
    ∀ {names : List String} {values : List α}, values.length = names.length →
      (∀ field ∈ names.zip values, field ∈ fields) →
      (names.mapM fun name => field? name (fields.map fun field => (some field.1, field.2))) = some values
  | [], [], _, _ => rfl
  | name :: names, value :: values, hlength, h => by
    have hfirst := field?_of_mem hnodup (h (name, value) List.mem_cons_self)
    have hrest := mapM_field?_zip hnodup (Nat.succ.inj hlength) fun field hfield =>
      h field (List.mem_cons_of_mem _ hfield)
    simp [hfirst, hrest]

/-! ## Fields that may be left out -/

theorem length_fieldsNamed_of_fieldOr? {default read : β} {f : α → Option β}
    (h : fieldOr? name default f fields = some read) : (fieldsNamed name fields).length ≤ 1 := by
  unfold fieldOr? at h
  split at h
  · next hnone => simp [hnone]
  · next hone => simp [hone]
  · cases h

end SeatMachine.Json
