import SeatMachine.Machine.Step
/-!
# Courses

The snapshots that a machine passes through, step after step, are its course. A failed step stands
still, so a course goes on for ever.

Steps and rewinds in any order only move a machine along the course of its start: a rewind leads to
the place before, never off the course, however many snapshots the history has forgotten. `IsAt`
says so of a machine and its whole history, `isAt_move` keeps it over one move and `isAt_moves` over
any sequence of them. The main theorem is `moves_follow_course`.
-/
namespace SeatMachine

/-! ## The course of a snapshot -/

namespace Snapshot

/-- The snapshot after some number of steps, those that fail included. -/
def after (program : Program) (s : Snapshot) : Nat → Snapshot
  | 0 => s
  | k + 1 => ((s.after program k).step program).2

/-- The snapshots passed on the way there, the newest first. -/
def past (program : Program) (s : Snapshot) : Nat → List Snapshot
  | 0 => []
  | k + 1 => s.after program k :: s.past program k

/-- What the start has and every step keeps is true along the whole course. -/
theorem after_invariant {program : Program} {P : Snapshot → Prop} {s : Snapshot} (h₀ : P s)
    (hstep : ∀ x, P x → P (x.step program).2) (k : Nat) : P (s.after program k) := by
  induction k with
  | zero => exact h₀
  | succ k ih => exact hstep _ ih

theorem mem_past {program : Program} {s x : Snapshot} {k : Nat} :
    x ∈ s.past program k ↔ ∃ j, j < k ∧ x = s.after program j := by
  induction k with
  | zero => simp [past]
  | succ k ih =>
    rw [past, List.mem_cons, ih]
    constructor
    · rintro (rfl | ⟨j, hj, rfl⟩)
      · exact ⟨k, by omega, rfl⟩
      · exact ⟨j, by omega, rfl⟩
    · rintro ⟨j, hj, rfl⟩
      by_cases h : j = k
      · subst h; exact Or.inl rfl
      · exact Or.inr ⟨j, by omega, rfl⟩

@[simp]
theorem length_past (program : Program) (s : Snapshot) (k : Nat) : (s.past program k).length = k := by
  induction k with
  | zero => rfl
  | succ k ih => rw [past, List.length_cons, ih]

/-- The newest part of the past, read from its oldest snapshot on, is a stretch of the course. -/
theorem reverse_of_prefix_past {program : Program} {s : Snapshot} :
    ∀ {k : Nat} {l : List Snapshot}, l <+: s.past program k →
      l.reverse = (List.range' (k - l.length) l.length).map (s.after program)
  | _, [], _ => by simp
  | 0, x :: l, h => by simp [past] at h
  | k + 1, x :: l, h => by
    rw [past, List.cons_prefix_cons] at h
    obtain ⟨rfl, h⟩ := h
    have hk : l.length ≤ k := by simpa using h.length_le
    rw [List.reverse_cons, reverse_of_prefix_past h, List.length_cons, List.range'_concat, List.map_append]
    have h1 : k + 1 - (l.length + 1) = k - l.length := by omega
    have h2 : k - l.length + 1 * l.length = k := by omega
    rw [h1, h2]
    rfl

end Snapshot

/-! ## Popping -/

namespace History

variable {α : Type}

theorem pop?_eq_some {h h' : History α} {a : α} (e : h.pop? = some (a, h')) :
    h.entries = a :: h'.entries ∧ h'.limit = h.limit := by
  obtain ⟨limit, entries, size, hs⟩ := h
  cases entries with
  | nil => simp [pop?] at e
  | cons x rest =>
    simp only [pop?, Option.some.injEq, Prod.mk.injEq] at e
    obtain ⟨rfl, rfl⟩ := e
    exact ⟨rfl, rfl⟩

/-- A push keeps a newest part of all that it could keep. -/
theorem entries_push_prefix (h : History α) (a : α) : (h.push a).entries <+: a :: h.entries := by
  rw [entries_push]
  cases h.limit with
  | none => exact List.prefix_rfl
  | some limit =>
    by_cases hl : h.entries.length < limit
    · simp only [hl, if_true]; exact List.prefix_rfl
    · simp only [hl, if_false]; exact List.take_prefix _ _

theorem entries_push_of_none {h : History α} (hl : h.limit = none) (a : α) :
    (h.push a).entries = a :: h.entries := by
  rw [entries_push, hl]

theorem length_push_le {h : History α} {limit : Nat} (hl : h.limit = some limit) (a : α) :
    (h.push a).entries.length ≤ limit := by
  rw [entries_push, hl]
  by_cases hs : h.entries.length < limit
  · simp only [hs, if_true, List.length_cons]; omega
  · simp only [hs, if_false, List.length_take]; omega

end History

/-! ## Moves -/

/-- A step, or a rewind of the last step. -/
inductive Move where
  | step
  | rewind
deriving DecidableEq, Repr

namespace Machine

/-- The machine after some number of steps, those that fail included. -/
def after (m : Machine) : Nat → Machine
  | 0 => m
  | k + 1 => (m.after k).step.2

/-- Makes a move. What a failed step leads to is kept, and a rewind that finds no step to take back
leaves the machine as it is. -/
def move (m : Machine) : Move → Machine
  | .step => m.step.2
  | .rewind => m.rewind?.getD m

def moves (m : Machine) : List Move → Machine
  | [] => m
  | a :: rest => (m.move a).moves rest

/-- The number of rewinds among some moves that find a step to take back. -/
def rewinds (m : Machine) : List Move → Nat
  | [] => 0
  | .step :: rest => (m.move .step).rewinds rest
  | .rewind :: rest => (if m.rewind?.isSome then 1 else 0) + (m.move .rewind).rewinds rest

@[simp]
theorem program_after (m : Machine) (k : Nat) : (m.after k).program = m.program := by
  induction k with
  | zero => rfl
  | succ k ih => rw [after, program_step, ih]

/-- The history has no part in what a step does. -/
@[simp]
theorem toSnapshot_after (m : Machine) (k : Nat) :
    (m.after k).toSnapshot = m.toSnapshot.after m.program k := by
  induction k with
  | zero => rfl
  | succ k ih => rw [after, toSnapshot_step, ih, program_after, Snapshot.after]

theorem rewind?_eq_some {m m' : Machine} (h : m.rewind? = some m') :
    m.history.entries = m'.toSnapshot :: m'.history.entries ∧ m'.history.limit = m.history.limit ∧
      m'.program = m.program := by
  unfold rewind? at h
  cases e : m.history.pop? with
  | none => rw [e] at h; cases h
  | some r =>
    obtain ⟨x, rest⟩ := r
    rw [e] at h
    cases h
    obtain ⟨he, hl⟩ := History.pop?_eq_some e
    exact ⟨he, hl, rfl⟩

theorem move_cases (m : Machine) (a : Move) :
    (a = .step ∧ m.move a = m.step.2) ∨ (a = .rewind ∧ m.rewind? = none ∧ m.move a = m) ∨
      (a = .rewind ∧ ∃ m', m.rewind? = some m' ∧ m.move a = m') := by
  cases a with
  | step => exact Or.inl ⟨rfl, rfl⟩
  | rewind =>
    cases h : m.rewind? with
    | none => exact Or.inr (Or.inl ⟨rfl, rfl, by simp [move, h]⟩)
    | some m' => exact Or.inr (Or.inr ⟨rfl, m', rfl, by simp [move, h]⟩)

/-! ## Standing on a course -/

/-- The machine stands at the `k`-th place of a course, and its history is the newest part of the
past of that place: all of it without a limit, and no more of it than a limit allows. -/
structure IsAt (m : Machine) (start : Snapshot) (k : Nat) : Prop where
  snapshot : m.toSnapshot = start.after m.program k
  kept : m.history.entries <+: start.past m.program k
  all : m.history.limit = none → m.history.entries = start.past m.program k
  few : ∀ limit, m.history.limit = some limit → m.history.entries.length ≤ limit

theorem isAt_start (array : List Int64) (program : Program) (limit : Option Nat) :
    (start array program limit).IsAt (.start array program) 0 :=
  ⟨rfl, List.prefix_rfl, fun _ => rfl, fun _ _ => Nat.zero_le _⟩

theorem IsAt.step {m : Machine} {s : Snapshot} {k : Nat} (h : m.IsAt s k) : m.step.2.IsAt s (k + 1) := by
  refine ⟨?_, ?_, fun hl => ?_, fun limit hl => ?_⟩
  · rw [toSnapshot_step, program_step, h.snapshot, Snapshot.after]
  · rw [history_step, program_step, Snapshot.past, ← h.snapshot]
    exact (History.entries_push_prefix _ _).trans (List.cons_prefix_cons.2 ⟨rfl, h.kept⟩)
  · rw [history_step, History.limit_push] at hl
    rw [history_step, History.entries_push_of_none hl, program_step, Snapshot.past, h.all hl, ← h.snapshot]
  · rw [history_step, History.limit_push] at hl
    exact History.length_push_le hl _

/-- A rewind goes back by one place: the newest snapshot of the history is the place before. -/
theorem IsAt.rewind {m m' : Machine} {s : Snapshot} {k : Nat} (h : m.IsAt s k)
    (hr : m.rewind? = some m') : ∃ j, k = j + 1 ∧ m'.IsAt s j := by
  obtain ⟨he, hl, hp⟩ := rewind?_eq_some hr
  have hk := h.kept
  rw [he] at hk
  cases k with
  | zero => simp [Snapshot.past] at hk
  | succ j =>
    rw [Snapshot.past, List.cons_prefix_cons] at hk
    refine ⟨j, rfl, ?_, ?_, fun hn => ?_, fun limit hs => ?_⟩
    · rw [hp]; exact hk.1
    · rw [hp]; exact hk.2
    · have ha := h.all (hl ▸ hn)
      rw [he, Snapshot.past] at ha
      rw [hp]; exact (List.cons.inj ha).2
    · have hf := h.few limit (hl ▸ hs)
      rw [he, List.length_cons] at hf
      omega

/-- One move: a step goes on by a place, a rewind goes back by a place or does nothing. -/
theorem isAt_move {m : Machine} {s : Snapshot} {k : Nat} (h : m.IsAt s k) (a : Move) :
    ∃ j, (m.move a).IsAt s j ∧ j + m.rewinds [a] = k + [a].count .step := by
  obtain ⟨rfl, e⟩ | ⟨rfl, hn, e⟩ | ⟨rfl, m', hs, e⟩ := m.move_cases a
  · exact ⟨k + 1, e ▸ h.step, by simp [rewinds]⟩
  · exact ⟨k, e.symm ▸ h, by simp [rewinds, hn]⟩
  · obtain ⟨j, rfl, hj⟩ := h.rewind hs
    exact ⟨j, e ▸ hj, by simp [rewinds, hs]⟩

theorem rewinds_cons (m : Machine) (a : Move) (rest : List Move) :
    m.rewinds (a :: rest) = m.rewinds [a] + (m.move a).rewinds rest := by
  cases a <;> simp [rewinds]

/-- Any moves: the place reached is the number of steps less the number of steps taken back. -/
theorem isAt_moves {s : Snapshot} :
    ∀ (as : List Move) {m : Machine} {k : Nat}, m.IsAt s k →
      ∃ j, (m.moves as).IsAt s j ∧ j + m.rewinds as = k + as.count .step
  | [], _, k, h => ⟨k, h, by simp [rewinds]⟩
  | a :: rest, m, k, h => by
    obtain ⟨i, hi, ei⟩ := isAt_move h a
    obtain ⟨j, hj, ej⟩ := isAt_moves rest hi
    have ec : (a :: rest).count .step = [a].count .step + rest.count .step := by
      rw [← List.count_append]; rfl
    refine ⟨j, hj, ?_⟩
    rw [rewinds_cons, ec]
    omega

theorem move_frame (m : Machine) (a : Move) :
    (m.move a).program = m.program ∧ (m.move a).history.limit = m.history.limit := by
  obtain ⟨-, e⟩ | ⟨-, -, e⟩ | ⟨-, m', hs, e⟩ := m.move_cases a
  · rw [e, program_step, history_step, History.limit_push]
    exact ⟨rfl, rfl⟩
  · rw [e]
    exact ⟨rfl, rfl⟩
  · obtain ⟨-, hl, hp⟩ := rewind?_eq_some hs
    rw [e]
    exact ⟨hp, hl⟩

theorem moves_frame : ∀ (as : List Move) (m : Machine),
    (m.moves as).program = m.program ∧ (m.moves as).history.limit = m.history.limit
  | [], _ => ⟨rfl, rfl⟩
  | a :: rest, m => by
    obtain ⟨hp, hl⟩ := moves_frame rest (m.move a)
    obtain ⟨hp', hl'⟩ := m.move_frame a
    exact ⟨hp.trans hp', hl.trans hl'⟩

/-- After any moves, the machine and all of its history lie on the course of the start. -/
theorem exists_after_of_mem {array : List Int64} {program : Program} {limit : Option Nat}
    {as : List Move} {s : Snapshot}
    (hs : s ∈ ((start array program limit).moves as).toSnapshot ::
      ((start array program limit).moves as).history.toList) :
    ∃ k, s = (Snapshot.start array program).after program k := by
  obtain ⟨k, hk, -⟩ := isAt_moves as (isAt_start array program limit)
  have hsnap := hk.snapshot
  have hkept := hk.kept
  rw [(moves_frame as _).1] at hsnap hkept
  rcases List.mem_cons.1 hs with rfl | hs
  · exact ⟨k, hsnap⟩
  · obtain ⟨j, -, hj⟩ := Snapshot.mem_past.1 (hkept.subset (List.mem_reverse.1 hs))
    exact ⟨j, hj⟩

/-- **Time travel is exact.** After any steps and rewinds from the start of a program, with or
without a limit on the history, the machine stands where `k` steps from the start lead, `k` being the
number of steps less the number of rewinds that took one back. Its history holds, oldest first, the
snapshots of the last places before that: of all of them without a limit, and otherwise of no more
than the limit. -/
theorem moves_follow_course (array : List Int64) (program : Program) (limit : Option Nat)
    (as : List Move) :
    let m₀ := start array program limit
    let m := m₀.moves as
    ∃ k, k + m₀.rewinds as = as.count .step ∧
      m.toSnapshot = (m₀.after k).toSnapshot ∧
      m.history.toList =
        (List.range' (k - m.history.size) m.history.size).map (fun j => (m₀.after j).toSnapshot) ∧
      match limit with
      | none => m.history.size = k
      | some l => m.history.size ≤ min k l := by
  intro m₀ m
  obtain ⟨k, hk, e⟩ := isAt_moves as (isAt_start array program limit)
  obtain ⟨hp, hl⟩ : m.program = program ∧ m.history.limit = limit := moves_frame as m₀
  have hsz := m.history.size_eq
  refine ⟨k, by simpa using e, ?_, ?_, ?_⟩
  · rw [toSnapshot_after, hk.snapshot, hp]; rfl
  · simp only [toSnapshot_after]
    rw [hsz, History.toList, Snapshot.reverse_of_prefix_past hk.kept, hp]; rfl
  · have hle : m.history.entries.length ≤ k := by simpa using hk.kept.length_le
    cases limit with
    | none =>
      have ha := congrArg List.length (hk.all hl)
      rw [Snapshot.length_past] at ha
      exact hsz.trans ha
    | some l =>
      have hf := hk.few l hl
      simp only [hsz]
      exact Nat.le_min.2 ⟨hle, hf⟩

end Machine

end SeatMachine
