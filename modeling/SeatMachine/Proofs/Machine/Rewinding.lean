import SeatMachine.Proofs.History.Editing
/-!
# Taking back a step

A step puts the snapshot before it into the history, whatever comes of the step, and a rewind takes the newest snapshot
out again. So a rewind right after a step leads back to the very machine before it, its history included, in every state
and for every instruction; only the history can have lost something in between, which depends on its limit alone.

`rewind_undoes_step` is the main theorem.
-/
namespace SeatMachine.Machine

variable {m : Machine}

theorem rewind?_step (m : Machine) :
    m.step.2.rewind? =
      (m.history.push m.toSnapshot).pop?.map fun popped => { m with toSnapshot := popped.1, history := popped.2 } := by
  unfold rewind?
  rw [history_step]
  cases (m.history.push m.toSnapshot).pop? with
  | none => rfl
  | some popped => rfl

theorem rewind?_step_of_hasRoom (hroom : m.history.HasRoom) : m.step.2.rewind? = some m := by
  rw [rewind?_step, History.pop?_push_of_hasRoom hroom]
  rfl

theorem rewind?_step_of_full {limit : Nat} (hlimit : m.history.limit = some (limit + 1))
    (hfull : m.history.size = limit + 1) :
    m.step.2.rewind? = some { m with history := m.history.dropOldest } := by
  rw [rewind?_step, History.pop?_push_of_full hlimit hfull]
  rfl

theorem rewind?_step_of_zero (hlimit : m.history.limit = some 0) : m.step.2.rewind? = none := by
  rw [rewind?_step, History.pop?_push_of_zero hlimit]
  rfl

/-- **A rewind takes back a step.** Take a machine in any state, also one that no run leads to or that has nothing left
to run, whose cursors are below the greatest possible number and whose history came about by pushes and pops. A step has
a result, and may be done or fail. Without a limit on the history, and with fewer entries than the limit, a rewind after
the step gives back the machine as it was, history and limit included. A history never has more entries than its limit;
if it has as many, and is to keep any, the rewind gives back the machine but for the oldest of them. With a limit of
zero, nothing can be taken back. -/
theorem rewind_undoes_step (m : Machine) (hmoco : m.moco < wordMax) (hchoco : m.choco < wordMax)
    (hbuilt : m.history.IsBuilt) :
    ∃ outcome m', m.step? = some (outcome, m') ∧
      (m.history.limit = none → m'.rewind? = some m) ∧
      ∀ limit, m.history.limit = some limit →
        m.history.size ≤ limit ∧
        (m.history.size < limit → m'.rewind? = some m) ∧
        (m.history.size = limit → 1 ≤ limit →
          ∃ older, m'.rewind? = some { m with history := older } ∧ older.limit = m.history.limit ∧
            older.toList = m.history.toList.tail) ∧
        (limit = 0 → m'.rewind? = none) := by
  refine ⟨m.step.1, m.step.2, step?_of_lt hmoco hchoco, fun hnone => ?_, fun limit hlimit => ?_⟩
  · refine rewind?_step_of_hasRoom fun limit hlimit => ?_
    rw [hnone] at hlimit
    cases hlimit
  · refine ⟨hbuilt.size_le hlimit, fun hlt => ?_, fun hfull hpos => ?_, fun hzero => ?_⟩
    · refine rewind?_step_of_hasRoom fun limit' hlimit' => ?_
      rw [hlimit] at hlimit'
      cases hlimit'
      exact hlt
    · obtain ⟨kept, rfl⟩ : ∃ kept, limit = kept + 1 := ⟨limit - 1, by omega⟩
      exact ⟨m.history.dropOldest, rewind?_step_of_full hlimit hfull, rfl, m.history.toList_dropOldest⟩
    · subst hzero
      exact rewind?_step_of_zero hlimit

/-- A step that fails off the row with room in the history, the same step with a full history, and one with nothing left
to run and a history that keeps nothing. -/
theorem rewind_undoes_step_at_each_limit :
    let body : Block := [.op (.pick .moco)]
    let s : Snapshot := { array := [3], moco := 5, hand := some 1, stack := [⟨body, 0⟩, ⟨[], 4⟩], stepCount := 41 }
    let kept (limit : Nat) : History Snapshot :=
      (History.empty (some limit)).edits [.push { s with moco := 0 }, .pop, .push s]
    let m (limit : Nat) : Machine := { s with history := kept limit, program := ⟨[]⟩ }
    let ended : Machine := { m 0 with stack := [] }
    ((m 2).step.1 = .failed (.pointerOutOfRange .moco 5 1) ∧ (m 2).step.2.rewind? = some (m 2)) ∧
    ((m 1).history.toList = [s] ∧
      ∃ older, (m 1).step.2.rewind? = some { m 1 with history := older } ∧ older.toList = [s].tail) ∧
    (ended.step.1 = .failed .programCompleted ∧ ended.step.2.rewind? = none) := by
  intro body s kept m ended
  have hbuilt : ∀ limit, (kept limit).IsBuilt := fun limit => ⟨some limit, _, rfl⟩
  have hcursors : s.moco < wordMax ∧ s.choco < wordMax := by decide
  refine ⟨⟨by decide, ?_⟩, ⟨by decide, ?_⟩, by decide, ?_⟩
  · obtain ⟨outcome, m', hstep, -, hlimit⟩ := rewind_undoes_step (m 2) hcursors.1 hcursors.2 (hbuilt 2)
    cases hstep
    exact (hlimit 2 rfl).2.1 (by decide)
  · obtain ⟨outcome, m', hstep, -, hlimit⟩ := rewind_undoes_step (m 1) hcursors.1 hcursors.2 (hbuilt 1)
    cases hstep
    obtain ⟨older, hrewind, -, holder⟩ := (hlimit 1 rfl).2.2.1 rfl (by decide)
    exact ⟨older, hrewind, holder⟩
  · obtain ⟨outcome, m', hstep, -, hlimit⟩ := rewind_undoes_step ended hcursors.1 hcursors.2 (hbuilt 0)
    cases hstep
    exact (hlimit 0 rfl).2.2.2 rfl

end SeatMachine.Machine
