/-!
# General facts

Facts about lists, results and texts in which no machine occurs.

`List.mapM` reads a list element by element. What it gives is known from the elements (`mapM_cons_eq_some_iff`), and an
element may be exchanged for another that can be read as well (`mapM_focus`).
-/
namespace SeatMachine

/-! ## Lists that are read element by element -/

section Reading

variable {α β γ : Type} {f g : α → Option β}

theorem mapM_cons_eq_some_iff {x : α} {xs : List α} {ys : List β} :
    (x :: xs).mapM f = some ys ↔ ∃ y rest, f x = some y ∧ xs.mapM f = some rest ∧ ys = y :: rest := by
  rw [List.mapM_cons]
  constructor
  · intro h
    obtain ⟨y, hy, h⟩ := Option.bind_eq_some_iff.1 h
    obtain ⟨rest, hrest, hpure⟩ := Option.bind_eq_some_iff.1 h
    cases hpure
    exact ⟨y, rest, hy, hrest, rfl⟩
  · rintro ⟨y, rest, hy, hrest, rfl⟩
    simp [hy, hrest]

theorem mapM_map_some (f : β → γ) (g : α → Option β) (xs : List α) :
    (xs.mapM fun x => (g x).map f) = (xs.mapM g).map (List.map f) := by
  induction xs with
  | nil => rfl
  | cons x xs ih =>
    rw [List.mapM_cons, List.mapM_cons, ih]
    cases g x with
    | none => rfl
    | some y => cases xs.mapM g <;> rfl

theorem mem_of_mapM {y : β} :
    ∀ {xs : List α} {ys : List β}, xs.mapM f = some ys → y ∈ ys → ∃ x ∈ xs, f x = some y
  | [], ys, h, hy => by
    cases h
    cases hy
  | x :: xs, ys, h, hy => by
    obtain ⟨z, zs, hz, hzs, rfl⟩ := mapM_cons_eq_some_iff.1 h
    rcases List.mem_cons.1 hy with rfl | hy
    · exact ⟨x, List.mem_cons_self, hz⟩
    · obtain ⟨x', hx', hf⟩ := mem_of_mapM hzs hy
      exact ⟨x', List.mem_cons_of_mem _ hx', hf⟩

theorem mapM_of_agrees : ∀ {xs : List α} {ys : List β}, xs.mapM f = some ys →
    (∀ x ∈ xs, ∀ y, f x = some y → g x = some y) → xs.mapM g = some ys
  | [], _, h, _ => h
  | x :: xs, ys, h, hagrees => by
    obtain ⟨y, rest, hy, hrest, rfl⟩ := mapM_cons_eq_some_iff.1 h
    have hfirst := hagrees x List.mem_cons_self y hy
    have hothers := mapM_of_agrees hrest fun x' hx' => hagrees x' (List.mem_cons_of_mem _ hx')
    exact mapM_cons_eq_some_iff.2 ⟨y, rest, hfirst, hothers, rfl⟩

/-- If a list is read with one element at a place, another element there changes this one result only. -/
theorem mapM_focus {x : α} {after : List α} :
    ∀ {before : List α} {ys : List β}, (before ++ x :: after).mapM f = some ys →
      ∃ y, f x = some y ∧ ys[before.length]? = some y ∧
        ∀ x' y', f x' = some y' → (before ++ x' :: after).mapM f = some (ys.set before.length y')
  | [], ys, h => by
    obtain ⟨y, rest, hy, hrest, rfl⟩ := mapM_cons_eq_some_iff.1 h
    exact ⟨y, hy, rfl, fun x' y' hy' => mapM_cons_eq_some_iff.2 ⟨y', rest, hy', hrest, rfl⟩⟩
  | first :: before, ys, h => by
    obtain ⟨z, rest, hz, hrest, rfl⟩ := mapM_cons_eq_some_iff.1 h
    obtain ⟨y, hy, hat, hset⟩ := mapM_focus hrest
    refine ⟨y, hy, by simpa using hat, fun x' y' hy' => ?_⟩
    exact mapM_cons_eq_some_iff.2 ⟨z, rest.set before.length y', hz, hset x' y' hy', rfl⟩

end Reading

/-! ## Lists of pairs -/

section Lookup

variable {α β : Type} [BEq α] [LawfulBEq α] {key other : α}

theorem lookup_cons_of_ne (h : other ≠ key) (value : β) (entries : List (α × β)) :
    ((key, value) :: entries).lookup other = entries.lookup other := by
  have hne : (other == key) = false := beq_false_of_ne h
  simp [List.lookup_cons, hne]

theorem lookup_filter_of_ne (h : other ≠ key) (entries : List (α × β)) :
    (entries.filter fun entry => entry.1 != key).lookup other = entries.lookup other := by
  induction entries with
  | nil => rfl
  | cons entry entries ih =>
    obtain ⟨here, value⟩ := entry
    by_cases hkey : here = key
    · subst hkey
      rw [lookup_cons_of_ne h, ← ih]
      simp
    · by_cases hother : other = here
      · subst hother
        simp [hkey]
      · rw [lookup_cons_of_ne hother, ← ih]
        simp [hkey, lookup_cons_of_ne hother]

end Lookup

theorem nodup_eraseDups {α : Type} [BEq α] [LawfulBEq α] (l : List α) : l.eraseDups.Nodup := by
  match l with
  | [] => exact List.nodup_nil
  | a :: l =>
    rw [List.eraseDups_cons, List.nodup_cons]
    exact ⟨by simp, nodup_eraseDups _⟩
termination_by l.length
decreasing_by exact Nat.lt_succ_of_le (List.length_filter_le ..)

/-! ## Exchanging two elements -/

section Exchange

variable {α : Type} {xs : List α} {i j : Nat} {x y : α}

theorem set_of_getElem? (h : xs[i]? = some x) : xs.set i x = xs := by
  obtain ⟨hlt, rfl⟩ := List.getElem?_eq_some_iff.1 h
  exact List.set_getElem_self hlt

/-- Each of the two places has the element of the other; they may be one and the same. -/
theorem getElem?_exchange (hi : xs[i]? = some x) (hj : xs[j]? = some y) :
    ((xs.set i y).set j x)[i]? = some y ∧ ((xs.set i y).set j x)[j]? = some x := by
  have hilt := (List.getElem?_eq_some_iff.1 hi).1
  have hjlt := (List.getElem?_eq_some_iff.1 hj).1
  by_cases hij : j = i
  · subst hij
    obtain rfl : x = y := Option.some.inj (hi.symm.trans hj)
    simp [hjlt]
  · simp [hij, hilt, hjlt]

theorem exchange_exchange (hi : xs[i]? = some x) (hj : xs[j]? = some y) :
    (((xs.set i y).set j x).set i x).set j y = xs := by
  by_cases hij : j = i
  · subst hij
    obtain rfl : x = y := Option.some.inj (hi.symm.trans hj)
    simp [set_of_getElem? hi]
  · calc (((xs.set i y).set j x).set i x).set j y
        = (((xs.set i y).set i x).set j x).set j y := by rw [List.set_comm _ _ hij]
      _ = (xs.set i x).set j y := by simp
      _ = xs := by rw [set_of_getElem? hi, set_of_getElem? hj]

theorem perm_exchange (hi : xs[i]? = some x) (hj : xs[j]? = some y) : ((xs.set i y).set j x).Perm xs := by
  obtain ⟨hilt, rfl⟩ := List.getElem?_eq_some_iff.1 hi
  obtain ⟨hjlt, rfl⟩ := List.getElem?_eq_some_iff.1 hj
  exact List.set_set_perm hilt hjlt

end Exchange

/-! ## Results and texts -/

/-- What succeeds has succeeded in each of its parts. -/
theorem exists_of_bind_eq_ok {ε α β : Type} {x : Except ε α} {f : α → Except ε β} {b : β}
    (h : x >>= f = .ok b) : ∃ a, x = .ok a ∧ f a = .ok b := by
  cases x with
  | error e => cases h
  | ok a => exact ⟨a, rfl, h⟩

theorem fromUTF8?_toUTF8 (text : String) : String.fromUTF8? text.toUTF8 = some text :=
  dif_pos text.isValidUTF8

end SeatMachine
