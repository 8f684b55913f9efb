import Mathlib.Data.List.Infix
import SeatMachine.Proofs.History.Editing
/-!
# A limit beside no limit

Two histories see the same pushes and pops, one with a limit and one without. The one with the limit does not simply
hold the last few entries that were pushed: pops take away entries that nothing brings back, so it can have room again,
or run empty, while the other still holds what came before.

What holds at every point is that it has the newest entries of the other one (`Recalls`). An edit of both keeps that
(`Recalls.edit`), and so whatever it gives back, the other gives back as well.

`bounded_simulates_unbounded` is the main theorem.
-/
namespace SeatMachine.History

variable {α : Type} {h full : History α}

/-! ## What an edit leaves -/

theorem entries_edit_pop (h : History α) : (h.edit .pop).entries = h.entries.tail := by
  obtain ⟨limit, entries, size, hsize⟩ := h
  cases entries with
  | nil => rfl
  | cons entry rest => rfl

@[simp]
theorem limit_edit (h : History α) (e : Edit α) : (h.edit e).limit = h.limit := by
  cases e with
  | push entry => exact limit_push h entry
  | pop =>
    obtain ⟨limit, entries, size, hsize⟩ := h
    cases entries with
    | nil => rfl
    | cons entry rest => rfl

@[simp]
theorem limit_edits (h : History α) (es : List (Edit α)) : (h.edits es).limit = h.limit := by
  induction es generalizing h with
  | nil => rfl
  | cons e es ih => exact (ih (h.edit e)).trans (limit_edit h e)

/-- A pop gives the newest entry, if there is one. -/
theorem pop?_eq_map_last? (h : History α) : h.pop? = h.last?.map fun entry => (entry, h.edit .pop) := by
  obtain ⟨limit, entries, size, hsize⟩ := h
  cases entries with
  | nil => rfl
  | cons entry rest => rfl

/-! ## Oldest first -/

theorem last?_eq_getLast? (h : History α) : h.last? = h.toList.getLast? :=
  List.getLast?_reverse.symm

/-- What a pop gives stood at the end. -/
theorem toList_of_pop? {entry : α} {rest : History α} (hpop : h.pop? = some (entry, rest)) :
    h.toList = rest.toList ++ [entry] := by
  simp only [toList, (pop?_eq_some hpop).1, List.reverse_cons]

theorem toList_push_of_hasRoom (hroom : h.HasRoom) (entry : α) : (h.push entry).toList = h.toList ++ [entry] := by
  rw [push_of_hasRoom hroom]
  exact List.reverse_cons

theorem toList_push_of_full {limit : Nat} (hlimit : h.limit = some (limit + 1)) (hfull : h.size = limit + 1)
    (entry : α) : (h.push entry).toList = h.toList.tail ++ [entry] := by
  rw [push_of_full hlimit hfull, ← toList_dropOldest]
  exact List.reverse_cons

/-! ## The newest entries -/

/-- The history has the newest entries of one that forgets nothing, and perhaps not all of them. -/
structure Recalls (h full : History α) : Prop where
  unlimited : full.limit = none
  newest : h.entries <+: full.entries

theorem recalls_empty (limit : Option Nat) : Recalls (empty limit : History α) (empty none) :=
  ⟨rfl, List.prefix_rfl⟩

/-- One edit: a push puts the same entry in front of both, however much the limit then takes off the other end, and a
pop takes the front of both, if there is any. -/
theorem Recalls.edit (hr : h.Recalls full) (e : Edit α) : (h.edit e).Recalls (full.edit e) := by
  refine ⟨(limit_edit full e).trans hr.unlimited, ?_⟩
  cases e with
  | push entry =>
    have hfull : (full.push entry).entries = entry :: full.entries := entries_push_of_none hr.unlimited entry
    have hkept : (h.push entry).entries <+: entry :: h.entries := entries_push_prefix h entry
    simp only [History.edit, hfull]
    exact hkept.trans (List.cons_prefix_cons.2 ⟨rfl, hr.newest⟩)
  | pop =>
    simp only [entries_edit_pop, ← List.drop_one]
    exact hr.newest.drop 1

/-- Any edits. -/
theorem Recalls.edits (hr : h.Recalls full) (es : List (Edit α)) : (h.edits es).Recalls (full.edits es) := by
  induction es generalizing h full with
  | nil => exact hr
  | cons e es ih => exact ih (hr.edit e)

theorem Recalls.toList_suffix (hr : h.Recalls full) : h.toList <:+ full.toList :=
  List.reverse_suffix.2 hr.newest

/-- Where a suffix holds any entry, its newest is the newest of the whole. -/
theorem Recalls.last? (hr : h.Recalls full) {entry : α} (hlast : h.last? = some entry) : full.last? = some entry := by
  obtain ⟨older, hfull⟩ := hr.toList_suffix
  rw [last?_eq_getLast?] at hlast ⊢
  rw [← hfull, List.getLast?_append, hlast]
  rfl

theorem Recalls.pop? (hr : h.Recalls full) {entry : α} {rest : History α} (hpop : h.pop? = some (entry, rest)) :
    full.pop? = some (entry, full.edit .pop) := by
  rw [pop?_eq_map_last?] at hpop ⊢
  obtain ⟨newest, hlast, hpair⟩ := Option.map_eq_some_iff.1 hpop
  cases hpair
  rw [hr.last? hlast]
  rfl

/-! ## Along the same edits -/

/-- **A history with a limit follows the one without.** Make any pushes and pops on an empty history with a limit and on
an empty one without. After them, the entries of the first are a suffix of the entries of the second, oldest first, and
no more than the limit. The newest entry of the first, and what a pop takes from its end, is the newest entry of the
second, and what a pop takes from its end; the first has something to give as long as it holds an entry. One more push
forgets nothing below the limit; at the limit it forgets the oldest entry and no other; and with a limit of zero, there
are never any entries. -/
theorem bounded_simulates_unbounded (limit : Nat) (es : List (Edit α)) :
    let bounded := (empty (some limit)).edits es
    let unbounded := (empty none).edits es
    (bounded.toList <:+ unbounded.toList ∧ bounded.size ≤ limit) ∧
    (∀ entry, bounded.last? = some entry → unbounded.last? = some entry) ∧
    (∀ entry rest, bounded.pop? = some (entry, rest) →
      bounded.toList = rest.toList ++ [entry] ∧
      ∃ rest', unbounded.pop? = some (entry, rest') ∧ unbounded.toList = rest'.toList ++ [entry]) ∧
    (bounded.toList ≠ [] → ∃ entry rest, bounded.last? = some entry ∧ bounded.pop? = some (entry, rest)) ∧
    (∀ entry,
      (bounded.size < limit → (bounded.push entry).toList = bounded.toList ++ [entry]) ∧
      (bounded.size = limit → 1 ≤ limit → (bounded.push entry).toList = bounded.toList.tail ++ [entry])) ∧
    (limit = 0 → bounded.toList = []) := by
  intro bounded unbounded
  have hrecalls : bounded.Recalls unbounded := (recalls_empty (some limit)).edits es
  have hlimit : bounded.limit = some limit := limit_edits _ es
  have hsize : bounded.size ≤ limit := IsBuilt.size_le ⟨some limit, es, rfl⟩ hlimit
  have hlength : bounded.toList.length = bounded.size := by rw [toList, List.length_reverse, size_eq]
  refine ⟨⟨hrecalls.toList_suffix, hsize⟩, fun _ => hrecalls.last?, fun entry rest hpop => ?_, fun hne => ?_,
    fun entry => ⟨fun hlt => ?_, fun hfull hpos => ?_⟩, fun hzero => ?_⟩
  · exact ⟨toList_of_pop? hpop, _, hrecalls.pop? hpop, toList_of_pop? (hrecalls.pop? hpop)⟩
  · have hlast : bounded.last? = some (bounded.toList.getLast hne) := by
      rw [last?_eq_getLast?, List.getLast?_eq_some_getLast hne]
    exact ⟨_, bounded.edit .pop, hlast, by rw [pop?_eq_map_last?, hlast]; rfl⟩
  · refine toList_push_of_hasRoom (fun limit' hlimit' => ?_) entry
    rw [hlimit] at hlimit'
    cases hlimit'
    exact hlt
  · obtain ⟨kept, rfl⟩ : ∃ kept, limit = kept + 1 := ⟨limit - 1, by omega⟩
    exact toList_push_of_full hlimit hfull entry
  · exact List.eq_nil_of_length_eq_zero (by omega)

/-- Three pushes at a limit of two cost the first entry, and two pops leave nothing to give on one side only. The next
push has room, the one after that fills the history again, and a third makes it forget. -/
theorem bounded_simulates_unbounded_after_pops :
    let es : List (Edit Nat) := [.push 0, .push 1, .push 2, .pop, .pop]
    let bounded (more : List (Edit Nat)) : History Nat := (empty (some 2)).edits (es ++ more)
    let unbounded (more : List (Edit Nat)) : History Nat := (empty none).edits (es ++ more)
    ((bounded []).pop? = none ∧ (unbounded []).toList = [0]) ∧
    ((bounded [.push 3]).last? = some 3 ∧ (unbounded [.push 3]).last? = some 3) ∧
    (∃ rest, (unbounded [.push 3]).pop? = some (3, rest)) ∧
    ((bounded [.push 3]).push 4).toList = [3] ++ [4] ∧
    ((bounded [.push 3, .push 4]).push 5).toList = [3, 4].tail ++ [5] ∧
    ((empty (some 0)).edits (es ++ [.push 3])).toList = [] := by
  intro es bounded unbounded
  have hlast : (bounded [.push 3]).last? = some 3 := by decide
  have hone : (bounded [.push 3]).toList = [3] := by decide
  have htwo : (bounded [.push 3, .push 4]).toList = [3, 4] := by decide
  obtain ⟨-, hsame, hpops, hgives, hpush, -⟩ := bounded_simulates_unbounded 2 (es ++ [.push 3])
  obtain ⟨entry, rest, hentry, hpop⟩ := hgives (by decide)
  obtain rfl : entry = 3 := Option.some.inj (hentry.symm.trans hlast)
  obtain ⟨-, rest', hpop', -⟩ := hpops _ rest hpop
  refine ⟨by decide, ⟨hlast, hsame 3 hlast⟩, ⟨rest', hpop'⟩, ?_, ?_, ?_⟩
  · rw [(hpush 4).1 (by decide), hone]
  · obtain ⟨-, -, -, -, hpush', -⟩ := bounded_simulates_unbounded 2 (es ++ [.push 3, .push 4])
    rw [(hpush' 5).2 (by decide) (by decide), htwo]
  · exact (bounded_simulates_unbounded 0 (es ++ [.push 3])).2.2.2.2.2 rfl

end SeatMachine.History
