import SeatMachine.Proofs.Machine.Course
/-!
# Pushes and pops

Whoever holds a history can only push onto it and pop from it. `IsBuilt` is what can come of that from an empty history,
with a limit or without: a history never holds more entries than its limit allows (`IsBuilt.size_le`).

A pop right after a push gives back what was pushed. Where there was room for it, the rest is the history before the
push; at its limit, the push has cost the history its oldest entry (`dropOldest`); and a history that keeps nothing has
nothing to give back.
-/
namespace SeatMachine.History

variable {α : Type} {h : History α}

/-! ## Edits -/

inductive Edit (α : Type) where
  | push (entry : α)
  | pop
deriving DecidableEq, Repr

/-- A pop from a history without entries leaves it as it is. -/
def edit (h : History α) : Edit α → History α
  | .push entry => h.push entry
  | .pop => (h.pop?.map Prod.snd).getD h

def edits (h : History α) (es : List (Edit α)) : History α :=
  es.foldl edit h

/-- The history comes from an empty one by pushes and pops. -/
def IsBuilt (h : History α) : Prop :=
  ∃ limit es, h = (empty limit).edits es

def IsWithinLimit (h : History α) : Prop :=
  ∀ limit, h.limit = some limit → h.entries.length ≤ limit

theorem isWithinLimit_empty (limit : Option Nat) : (empty limit : History α).IsWithinLimit :=
  fun _ _ => Nat.zero_le _

/-- One edit: a push makes room, and a pop takes an entry away. -/
theorem IsWithinLimit.edit (hw : h.IsWithinLimit) (e : Edit α) : (h.edit e).IsWithinLimit := by
  intro limit hlimit
  cases e with
  | push entry =>
    simp only [History.edit, limit_push] at hlimit ⊢
    exact length_push_le hlimit entry
  | pop =>
    simp only [History.edit] at hlimit ⊢
    cases hpop : h.pop? with
    | none =>
      simp only [hpop, Option.map_none, Option.getD_none] at hlimit ⊢
      exact hw limit hlimit
    | some popped =>
      obtain ⟨entry, rest⟩ := popped
      obtain ⟨hentries, hsame⟩ := pop?_eq_some hpop
      simp only [hpop, Option.map_some, Option.getD_some] at hlimit ⊢
      have hle := hw limit (hsame ▸ hlimit)
      rw [hentries, List.length_cons] at hle
      omega

/-- Any edits. -/
theorem IsWithinLimit.edits (hw : h.IsWithinLimit) (es : List (Edit α)) : (h.edits es).IsWithinLimit := by
  induction es generalizing h with
  | nil => exact hw
  | cons e es ih => exact ih (hw.edit e)

theorem IsBuilt.size_le (hb : h.IsBuilt) {limit : Nat} (hlimit : h.limit = some limit) : h.size ≤ limit := by
  obtain ⟨start, es, rfl⟩ := hb
  rw [size_eq]
  exact (isWithinLimit_empty start).edits es limit hlimit

/-! ## A pop after a push -/

/-- There is something to pop unless there are no entries. -/
theorem pop?_eq_none_iff : h.pop? = none ↔ h.entries = [] := by
  obtain ⟨limit, entries, size, hsize⟩ := h
  cases entries with
  | nil => simp [pop?]
  | cons entry rest => simp [pop?]

def dropOldest (h : History α) : History α :=
  ⟨h.limit, h.entries.dropLast, h.size - 1, by simp [h.size_eq]⟩

theorem toList_dropOldest (h : History α) : h.dropOldest.toList = h.toList.tail := by
  simp [dropOldest, toList, List.tail_reverse]

/-- There is room for one more entry. -/
def HasRoom (h : History α) : Prop :=
  ∀ limit, h.limit = some limit → h.size < limit

theorem push_of_hasRoom (hroom : h.HasRoom) (entry : α) : h.push entry = h.cons entry := by
  unfold push
  cases hlimit : h.limit with
  | none => rfl
  | some limit => simp only [hroom limit hlimit, if_true]

theorem pop?_push_of_hasRoom (hroom : h.HasRoom) (entry : α) : (h.push entry).pop? = some (entry, h) := by
  rw [push_of_hasRoom hroom, pop?_cons]

/-- At its limit, a history forgets its oldest entry for a new one. -/
theorem push_of_full {limit : Nat} (hlimit : h.limit = some (limit + 1)) (hfull : h.size = limit + 1) (entry : α) :
    h.push entry = h.dropOldest.cons entry := by
  have hlength : h.entries.length = limit + 1 := by rw [← h.size_eq, hfull]
  refine History.ext (limit_push h entry) ?_
  rw [entries_push, hlimit]
  simp [cons, dropOldest, hlength, List.dropLast_eq_take]

theorem pop?_push_of_full {limit : Nat} (hlimit : h.limit = some (limit + 1)) (hfull : h.size = limit + 1) (entry : α) :
    (h.push entry).pop? = some (entry, h.dropOldest) := by
  rw [push_of_full hlimit hfull, pop?_cons]

theorem pop?_push_of_zero (hlimit : h.limit = some 0) (entry : α) : (h.push entry).pop? = none := by
  refine pop?_eq_none_iff.2 ?_
  rw [entries_push, hlimit]
  rfl

end SeatMachine.History
