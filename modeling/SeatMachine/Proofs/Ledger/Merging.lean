import Mathlib.Order.Bounds.Basic
import SeatMachine.Ledger.Basic
/-!
# Merging

Recording a completion changes the entry under its own id and no other: `get?_record` and `get?_record_of_ne`. So after
any number of completions, each entry depends on the completions of its own challenge only (`get?_recordAll`), and on
these in a simple way (`Entry.completeAll_eq`): the least number of steps counts, and the first time.

The main theorem is `recordAll_merges`.
-/
namespace SeatMachine.Ledger

variable {id other : String} {e : Entry}

theorem lookup_insertEntry (id : String) (e : Entry) :
    ∀ entries : List (String × Entry), (insertEntry id e entries).lookup id = some e
  | [] => by simp [insertEntry]
  | (id', e') :: rest => by
    rw [insertEntry]
    split
    · simp
    · split
      · next hlt =>
        have hne : (id == id') = false := beq_false_of_ne (String.ne_of_lt hlt).symm
        rw [List.lookup_cons, hne]
        exact lookup_insertEntry id e rest
      · simp

theorem lookup_insertEntry_of_ne (h : other ≠ id) :
    ∀ entries : List (String × Entry), (insertEntry id e entries).lookup other = entries.lookup other
  | [] => by simp [insertEntry, List.lookup_cons, beq_false_of_ne h]
  | (id', e') :: rest => by
    have hne : (other == id) = false := beq_false_of_ne h
    rw [insertEntry]
    split
    · simp [List.lookup_cons, hne]
    · next hge =>
      split
      · simp only [List.lookup_cons, lookup_insertEntry_of_ne h rest]
      · next hle =>
        obtain rfl : id = id' := String.le_antisymm (String.not_lt.1 hle) (String.not_lt.1 hge)
        simp [List.lookup_cons, hne]

theorem get?_record (l : Ledger) (id : String) (steps time : UInt64) :
    (l.record id steps time).get? id = some (((l.get? id).getD (.blank id)).complete steps time) :=
  lookup_insertEntry id _ l.entries

theorem get?_record_of_ne (h : other ≠ id) (l : Ledger) (steps time : UInt64) :
    (l.record id steps time).get? other = l.get? other :=
  lookup_insertEntry_of_ne h l.entries

/-! ## Any number of completions of one challenge -/

/-- A completion to be recorded: of which challenge, in how many steps, and when. -/
structure Recording where
  id : String
  steps : UInt64
  time : UInt64
deriving DecidableEq, Repr

namespace Entry

def completeAll (e : Entry) (recordings : List Recording) : Entry :=
  recordings.foldl (fun e r => e.complete r.steps r.time) e

def withoutTime (e : Entry) : Entry :=
  { e with completedAt := none }

/-- After completions, the best step count is the least among the one before and those of the completions, and the
time is the one before or else that of the first completion. -/
theorem completeAll_eq (e : Entry) (recordings : List Recording) :
    e.completeAll recordings =
      { challengeId := e.challengeId
        completed := e.completed || !recordings.isEmpty
        bestStepCount := (e.bestStepCount.toList ++ recordings.map Recording.steps).min?
        completedAt := e.completedAt.or (recordings.head?.map Recording.time) } := by
  induction recordings generalizing e with
  | nil =>
    obtain ⟨id, completed, best, time⟩ := e
    cases best <;> simp [completeAll]
  | cons r recordings ih =>
    have hstep : e.completeAll (r :: recordings) = (e.complete r.steps r.time).completeAll recordings := rfl
    obtain ⟨id, completed, best, time⟩ := e
    rw [hstep, ih]
    -- The steps meet the best of the entry, if it has one; the time counts only if the entry has none.
    cases best <;> cases time <;> simp [complete, List.min?_cons', -List.min?_cons]

/-- The order of completions matters to nothing but the time. -/
theorem withoutTime_completeAll (e : Entry) {recordings recordings' : List Recording}
    (h : recordings.Perm recordings') :
    (e.completeAll recordings').withoutTime = (e.completeAll recordings).withoutTime := by
  have hsteps : (e.bestStepCount.toList ++ recordings'.map Recording.steps).min? =
      (e.bestStepCount.toList ++ recordings.map Recording.steps).min? := by
    ext best
    simp only [List.min?_eq_some_iff, ((h.map Recording.steps).append_left e.bestStepCount.toList).mem_iff]
  rw [completeAll_eq, completeAll_eq, withoutTime, withoutTime, hsteps, h.isEmpty_eq]

/-! ### What was known before -/

variable (known : Option Entry) (id : String)

theorem bestStepCount_known : (known.getD (.blank id)).bestStepCount = known.bind Entry.bestStepCount := by
  cases known <;> rfl

theorem completedAt_known : (known.getD (.blank id)).completedAt = known.bind Entry.completedAt := by
  cases known <;> rfl

theorem challengeId_known : (known.getD (.blank id)).challengeId = (known.map Entry.challengeId).getD id := by
  cases known <;> rfl

end Entry

/-! ## Any number of completions -/

/-- The ledger with completions recorded one after the other. -/
def recordAll (l : Ledger) (recordings : List Recording) : Ledger :=
  recordings.foldl (fun l r => l.record r.id r.steps r.time) l

def recordingsOf (id : String) (recordings : List Recording) : List Recording :=
  recordings.filter fun r => r.id == id

theorem recordingsOf_ne_nil {recordings : List Recording} (h : ∃ r ∈ recordings, r.id = id) :
    recordingsOf id recordings ≠ [] := by
  simpa [recordingsOf] using h

theorem recordAll_cons (l : Ledger) (r : Recording) (recordings : List Recording) :
    l.recordAll (r :: recordings) = (l.record r.id r.steps r.time).recordAll recordings := rfl

theorem get?_recordAll_of_absent {recordings : List Recording} (h : ∀ r ∈ recordings, r.id ≠ id) (l : Ledger) :
    (l.recordAll recordings).get? id = l.get? id := by
  induction recordings generalizing l with
  | nil => rfl
  | cons r recordings ih =>
    obtain ⟨hr, hrest⟩ := List.forall_mem_cons.1 h
    rw [recordAll_cons, ih hrest, get?_record_of_ne hr.symm]

/-- The entry of a challenge is changed by the completions of that challenge, and by no others. -/
theorem get?_recordAll {recordings : List Recording} (h : ∃ r ∈ recordings, r.id = id) (l : Ledger) :
    (l.recordAll recordings).get? id =
      some (((l.get? id).getD (.blank id)).completeAll (recordingsOf id recordings)) := by
  induction recordings generalizing l with
  | nil =>
    obtain ⟨r, hr, -⟩ := h
    cases hr
  | cons r recordings ih =>
    rw [recordAll_cons]
    by_cases hr : r.id = id
    · subst hr
      have hown : recordingsOf r.id (r :: recordings) = r :: recordingsOf r.id recordings := by simp [recordingsOf]
      by_cases hrest : ∃ other ∈ recordings, other.id = r.id
      · rw [ih hrest, get?_record, hown]
        rfl
      · -- The last completion of this challenge.
        have hnone : recordingsOf r.id recordings = [] := by simpa [recordingsOf] using hrest
        rw [get?_recordAll_of_absent (by simpa using hrest), get?_record, hown, hnone]
        rfl
    · have hown : recordingsOf id (r :: recordings) = recordingsOf id recordings := by simp [recordingsOf, hr]
      have hrest : ∃ other ∈ recordings, other.id = id := by simpa [hr] using h
      rw [ih hrest, get?_record_of_ne (Ne.symm hr), hown]

/-- The order in which completions are recorded matters to nothing but the times. -/
theorem get?_recordAll_perm {recordings recordings' : List Recording} (h : recordings.Perm recordings') (l : Ledger)
    (id : String) :
    ((l.recordAll recordings').get? id).map Entry.withoutTime =
      ((l.recordAll recordings).get? id).map Entry.withoutTime := by
  by_cases hid : ∃ r ∈ recordings, r.id = id
  · have hid' : ∃ r ∈ recordings', r.id = id := by simpa only [h.mem_iff] using hid
    have hown : (recordingsOf id recordings).Perm (recordingsOf id recordings') := h.filter _
    rw [get?_recordAll hid, get?_recordAll hid', Option.map_some, Option.map_some, Entry.withoutTime_completeAll _ hown]
  · have habsent : ∀ r ∈ recordings, r.id ≠ id := by simpa using hid
    rw [get?_recordAll_of_absent habsent, get?_recordAll_of_absent fun r hr => habsent r (h.mem_iff.2 hr)]

/-- What is least among the steps known before and those recorded for a challenge. -/
theorem isLeast_of_min? {known : Option UInt64} {recordings : List Recording} {best : UInt64}
    (h : (known.toList ++ (recordingsOf id recordings).map Recording.steps).min? = some best) :
    IsLeast {steps | known = some steps ∨ ∃ r ∈ recordings, r.id = id ∧ r.steps = steps} best := by
  have hmem : ∀ steps, steps ∈ known.toList ++ (recordingsOf id recordings).map Recording.steps ↔
      known = some steps ∨ ∃ r ∈ recordings, r.id = id ∧ r.steps = steps := by
    intro steps
    simp [recordingsOf, and_assoc]
  obtain ⟨hbest, hleast⟩ := List.min?_eq_some_iff.1 h
  exact ⟨(hmem best).1 hbest, fun steps hsteps => hleast steps ((hmem steps).2 hsteps)⟩

/-- **How completions are merged.** Let completions be recorded in any ledger. A challenge that is among them has an
entry then: it is completed, its best step count is the least among the one that it had, if any, and those that were
recorded for it, its time is the one that it had or else that of the first completion recorded for it, and its
challenge id is the one that it had or else its own id. All other entries are as before. In another order, the same
completions give the same entries but for the times. -/
theorem recordAll_merges (l : Ledger) (recordings : List Recording) :
    (∀ r ∈ recordings, ∃ first e, recordings.find? (fun other => other.id == r.id) = some first ∧
      (l.recordAll recordings).get? r.id = some e ∧ e.completed = true ∧
      (∃ best, e.bestStepCount = some best ∧
        IsLeast {steps | (l.get? r.id).bind Entry.bestStepCount = some steps ∨
          ∃ other ∈ recordings, other.id = r.id ∧ other.steps = steps} best) ∧
      e.completedAt = some (((l.get? r.id).bind Entry.completedAt).getD first.time) ∧
      e.challengeId = ((l.get? r.id).map Entry.challengeId).getD r.id) ∧
    (∀ id, (∀ r ∈ recordings, r.id ≠ id) → (l.recordAll recordings).get? id = l.get? id) ∧
    ∀ recordings', recordings.Perm recordings' → ∀ id,
      ((l.recordAll recordings').get? id).map Entry.withoutTime =
        ((l.recordAll recordings).get? id).map Entry.withoutTime := by
  refine ⟨fun r hr => ?_, fun id h => get?_recordAll_of_absent h l, fun recordings' h => get?_recordAll_perm h l⟩
  have hrecorded : ∃ other ∈ recordings, other.id = r.id := ⟨r, hr, rfl⟩
  have hne := recordingsOf_ne_nil hrecorded
  have hhead : (recordingsOf r.id recordings).head? = recordings.find? fun other => other.id == r.id :=
    List.head?_filter
  obtain ⟨first, hfirst⟩ := Option.ne_none_iff_exists'.1 (mt List.head?_eq_none_iff.1 hne)
  have hentry := get?_recordAll hrecorded l
  rw [Entry.completeAll_eq, Entry.bestStepCount_known, Entry.completedAt_known, Entry.challengeId_known,
    hfirst] at hentry
  refine ⟨first, _, hhead.symm.trans hfirst, hentry, ?_, ?_, ?_, rfl⟩
  · simp [hne]
  · let steps := ((l.get? r.id).bind Entry.bestStepCount).toList ++ (recordingsOf r.id recordings).map Recording.steps
    have hsome : steps ≠ [] := by simp [steps, hne]
    obtain ⟨best, hbest⟩ := Option.ne_none_iff_exists'.1 (mt List.min?_eq_none_iff.1 hsome)
    exact ⟨best, hbest, isLeast_of_min? hbest⟩
  · simp

/-- Completions of three challenges in turn, recorded in a ledger that knows an uncompleted challenge by another
challenge id and a completed one without its steps. Recorded in the opposite order, they give other times only. -/
theorem recordAll_merges_reversed :
    let l : Ledger :=
      ⟨[("copy", ⟨"other", false, some 20, none⟩), ("sort", ⟨"sort", true, none, some 5⟩), ("swap", .blank "swap")],
        by decide⟩
    let recordings : List Recording :=
      [⟨"sort", 9, 100⟩, ⟨"copy", 30, 101⟩, ⟨"find", 4, 102⟩, ⟨"sort", 7, 103⟩, ⟨"copy", 12, 104⟩]
    (l.recordAll recordings).get? "copy" = some ⟨"other", true, some 12, some 101⟩ ∧
    (l.recordAll recordings.reverse).get? "copy" = some ⟨"other", true, some 12, some 104⟩ ∧
    (l.recordAll recordings).get? "swap" = some (.blank "swap") ∧
    (∀ id, ((l.recordAll recordings.reverse).get? id).map Entry.withoutTime =
      ((l.recordAll recordings).get? id).map Entry.withoutTime) := by
  intro l recordings
  obtain ⟨hmerged, hkept, hperm⟩ := l.recordAll_merges recordings
  obtain ⟨first, e, hfirst, hentry, hcompleted, ⟨best, hbest, hleast⟩, htime, hid⟩ :=
    hmerged ⟨"copy", 12, 104⟩ (by decide)
  cases hfirst
  have hle : best ≤ 12 := hleast.2 (.inr ⟨⟨"copy", 12, 104⟩, by decide, rfl, rfl⟩)
  have hge : 12 ≤ best := by
    rcases hleast.1 with hknown | ⟨other, hother, hcopy, rfl⟩
    · cases hknown
      decide
    · have hall : ∀ other ∈ recordings, other.id = "copy" → 12 ≤ other.steps := by decide
      exact hall other hother hcopy
  obtain rfl : best = 12 := UInt64.le_antisymm hle hge
  obtain ⟨challengeId, completed, bestStepCount, completedAt⟩ := e
  cases hcompleted
  cases hbest
  cases htime
  cases hid
  exact ⟨hentry, by decide, hkept "swap" (by decide), hperm _ (List.reverse_perm recordings).symm⟩

end SeatMachine.Ledger
