import SeatMachine.Command.Trace
import SeatMachine.Proofs.Session.Ticking
/-!
# Tracing

A trace and a session drive the same machine by different rules. The session looks ahead: it ends an attempt
as soon as the place reached is the end of the program. A trace only stops at a step that completes or
fails, so it takes one step more to leave the program, and that step changes neither the row nor the number
of steps.

`collect_of_stop` and `collect_of_limit` say what a trace collects, in terms of the first step that does not
advance; `collect_of_finished` and `collect_of_faulted` say it in terms of how the attempt ends. What is
printed for a line is read back by `Line.shown?`.

The main theorem is `agrees_with_run`.
-/
namespace SeatMachine

namespace Trace

/-! ## The lines of a trace -/

def line (m : Machine) : Line :=
  ⟨m.current?, m.step.1, m.step.2⟩

/-- The lines of the first steps of a machine. -/
def firstLines (m : Machine) : Nat → List Line
  | 0 => []
  | k + 1 => firstLines m k ++ [line (m.after k)]

/-- Why a trace stops after a step, if it does. -/
def Stop.of? : Outcome → Option Stop
  | .advanced => none
  | .completed | .failed .programCompleted => some .completed
  | .failed fault => some (.failed fault)

theorem collect_succ (limit : Nat) (m : Machine) :
    collect (limit + 1) m =
      match Stop.of? m.step.1 with
      | none => (line m :: (collect limit m.step.2).1, (collect limit m.step.2).2)
      | some stop => ([line m], stop) := by
  rw [collect]
  unfold line
  rcases m.step with ⟨outcome, m'⟩
  cases outcome with
  | advanced => rfl
  | completed => rfl
  | failed fault => cases fault <;> rfl

/-- Steps that advance are traced one by one. -/
theorem collect_add {m : Machine} : ∀ {k : Nat} (rest : Nat),
    (∀ j, j < k → (m.after j).step.1 = .advanced) →
      collect (k + rest) m =
        (firstLines m k ++ (collect rest (m.after k)).1, (collect rest (m.after k)).2)
  | 0, rest, _ => by rw [Nat.zero_add]; rfl
  | k + 1, rest, h => by
    rw [Nat.add_assoc, Nat.add_comm 1, collect_add (rest + 1) fun j hj => h j (Nat.lt_succ_of_lt hj),
      collect_succ, h k (Nat.lt_succ_self k)]
    simp only [Stop.of?, firstLines, List.append_assoc, List.singleton_append]
    rfl

theorem length_firstLines (m : Machine) (k : Nat) : (firstLines m k).length = k := by
  induction k with
  | zero => rfl
  | succ k ih => rw [firstLines, List.length_append, ih]; rfl

theorem mem_firstLines {m : Machine} {k : Nat} {l : Line} (h : l ∈ firstLines m k) :
    ∃ j, j < k ∧ l = line (m.after j) := by
  induction k with
  | zero => cases h
  | succ k ih =>
    rw [firstLines, List.mem_append, List.mem_singleton] at h
    rcases h with h | rfl
    · obtain ⟨j, hj, rfl⟩ := ih h
      exact ⟨j, Nat.lt_succ_of_lt hj, rfl⟩
    · exact ⟨k, Nat.lt_succ_self k, rfl⟩

/-- A trace stops with the first step that does not advance. -/
theorem collect_of_stop {m : Machine} {k limit : Nat} (hk : k < limit)
    (h : ∀ j, j < k → (m.after j).step.1 = .advanced) {stop : Stop}
    (hstop : Stop.of? (m.after k).step.1 = some stop) :
    collect limit m = (firstLines m k ++ [line (m.after k)], stop) := by
  obtain ⟨rest, rfl⟩ : ∃ rest, limit = k + (rest + 1) := ⟨limit - k - 1, by omega⟩
  rw [collect_add _ h, collect_succ, hstop]

/-- Or when its limit is used up. -/
theorem collect_of_limit {m : Machine} {limit : Nat}
    (h : ∀ j, j < limit → (m.after j).step.1 = .advanced) :
    collect limit m = (firstLines m limit, .limit) := by
  have hall := collect_add 0 h
  rw [Nat.add_zero] at hall
  rw [hall, collect, List.append_nil]

/-! ## What a line shows -/

/-- A member of the object that is printed for a line. -/
def Line.shown? (l : Line) (name : String) : Option Json :=
  match l.toJson with
  | .object members => Json.field? name members
  | _ => none

theorem shown?_array (l : Line) : l.shown? "array" = some (Challenge.seatsToJson l.machine.array) := by
  unfold Line.shown? Line.toJson
  cases l.outcome.fault? <;> rfl

theorem shown?_stepCount (l : Line) : l.shown? "stepCount" = some (.nat l.machine.stepCount.toNat) := by
  unfold Line.shown? Line.toJson
  cases l.outcome.fault? <;> rfl

theorem shown?_completed (l : Line) : l.shown? "completed" = some (.bool l.outcome.isCompleted) := by
  unfold Line.shown? Line.toJson
  cases l.outcome.fault? <;> rfl

theorem shown?_error (l : Line) : l.shown? "error" = l.outcome.fault?.map Fault.toJson := by
  unfold Line.shown? Line.toJson
  cases l.outcome.fault? <;> rfl

/-! ## Traces of an attempt -/

theorem Stop.of?_of_isCompleted {outcome : Outcome} (h : outcome.isCompleted = true) :
    Stop.of? outcome = some .completed := by
  cases outcome with
  | advanced => cases h
  | completed => rfl
  | failed fault =>
    rw [Outcome.isCompleted_failed, decide_eq_true_eq] at h
    rw [h]
    rfl

theorem Stop.of?_failed {fault : Fault} (h : fault ≠ .programCompleted) :
    Stop.of? (.failed fault) = some (.failed fault) := by
  cases fault with
  | programCompleted => exact absurd rfl h
  | _ => rfl

theorem exit_report_of_soft {fault : Fault} (h : Policy.boundary fault = .soft) (limit : Nat)
    (lines : List Line) : (report limit lines (.failed fault)).exit = .success := by
  simp only [report, h]

theorem out_report (limit : Nat) (lines : List Line) (stop : Stop) :
    (report limit lines stop).out = Report.lines (lines.map fun l => l.toJson.compact) := by
  unfold report
  cases stop with
  | completed => rfl
  | limit => rfl
  | failed fault =>
    dsimp only
    cases Policy.boundary fault <;> rfl

variable {c : Challenge} {program : Program} {k limit : Nat}

/-- The steps that are traced are those of the course. -/
theorem fst_step_after (array : List Int64) (program : Program) (k : Nat) :
    ((Machine.start array program none).after k).step.1 =
      (((Snapshot.start array program).after program k).step program).1 := by
  rw [Machine.fst_step, Machine.toSnapshot_after, Machine.program_after]
  rfl

theorem advanced_of_endingAt {policy : Policy} (h : ∀ j, j ≤ k → c.endingAt program policy j = none) :
    ∀ j, j < k → ((Machine.start c.initialArray program none).after j).step.1 = .advanced := by
  intro j hj
  have hnone := h (j + 1) hj
  rw [fst_step_after]
  obtain ⟨-, hadvanced⟩ | ⟨e, -⟩ | ⟨fault, e, -⟩ :=
    c.endingAfter_cases program policy ((Snapshot.start c.initialArray program).after program j)
  · exact hadvanced
  · cases hnone.symm.trans e
  · cases hnone.symm.trans e

/-- A line shows the place of the course that its step leads to. -/
theorem toSnapshot_line_after (array : List Int64) (program : Program) (k : Nat) :
    (line ((Machine.start array program none).after k)).machine.toSnapshot =
      (Snapshot.start array program).after program (k + 1) :=
  Machine.toSnapshot_after (.start array program none) (k + 1)

/-- An attempt that is judged after `k + 1` steps is traced to its end with one more step at most, which
changes neither the row nor the number of steps. -/
theorem collect_of_finished {verdict : Verdict} (hk : k < limit)
    (hbefore : ∀ j, j ≤ k → c.endingAt program .boundary j = none)
    (hend : c.endingAt program .boundary (k + 1) = some (.finished verdict)) :
    let x := (Snapshot.start c.initialArray program).after program (k + 1)
    verdict = c.judge x ∧
    ∃ before last stop,
      collect (limit + 1) (.start c.initialArray program none) = (before ++ [last], stop) ∧
      (report (limit + 1) (before ++ [last]) stop).exit = .success ∧
      last.machine.array = x.array ∧ last.machine.stepCount = x.stepCount := by
  intro x
  have hadvanced := advanced_of_endingAt hbefore
  obtain ⟨e, -⟩ | ⟨e, ⟨hstep, hline⟩ | hcompleted | ⟨fault, hfailed, hsoft⟩⟩ | ⟨fault, e, -⟩ :=
    c.endingAfter_cases program .boundary ((Snapshot.start c.initialArray program).after program k) <;>
    cases hend.symm.trans e
  · -- The session is a step ahead: the trace goes on and leaves the program.
    have hnested : Nested program x.stack := nested_after c.initialArray program (k + 1)
    have hleaves := (Snapshot.atEnd_iff_isCompleted hnested).1 ((Snapshot.atEnd_iff_line hnested).2 hline)
    have hsame := Snapshot.eq_of_isCompleted hleaves
    rw [← fst_step_after] at hstep
    have hstop := Stop.of?_of_isCompleted ((fst_step_after c.initialArray program (k + 1)).symm ▸ hleaves)
    refine ⟨rfl, _, _, _, collect_of_stop (Nat.succ_lt_succ hk) ?_ hstop, rfl, ?_, ?_⟩
    · intro j hj
      rcases Nat.lt_succ_iff_lt_or_eq.1 hj with hj | rfl
      · exact hadvanced j hj
      · exact hstep
    · rw [toSnapshot_line_after]
      exact congrArg Store.array hsame.1
    · rw [toSnapshot_line_after]
      exact hsame.2
  · rw [← fst_step_after] at hcompleted
    refine ⟨rfl, _, _, _, collect_of_stop (Nat.lt_succ_of_lt hk) hadvanced (Stop.of?_of_isCompleted hcompleted),
      rfl, ?_, ?_⟩
    · rw [toSnapshot_line_after]
    · rw [toSnapshot_line_after]
  · have hnot : fault ≠ .programCompleted := by rintro rfl; cases hsoft
    rw [← fst_step_after] at hfailed
    refine ⟨rfl, _, _, _, collect_of_stop (Nat.lt_succ_of_lt hk) hadvanced (hfailed ▸ Stop.of?_failed hnot),
      exit_report_of_soft hsoft _ _, ?_, ?_⟩
    · rw [toSnapshot_line_after]
    · rw [toSnapshot_line_after]

/-- An attempt that fails with its step number `k + 1` is traced up to that step. -/
theorem collect_of_faulted {fault : Fault} (hk : k < limit)
    (hbefore : ∀ j, j ≤ k → c.endingAt program .boundary j = none)
    (hend : c.endingAt program .boundary (k + 1) = some (.faulted fault)) :
    Policy.boundary fault = .hard ∧
    ∃ before last,
      collect limit (.start c.initialArray program none) = (before ++ [last], .failed fault) ∧
      last.outcome = .failed fault ∧
      last.machine.toSnapshot = (Snapshot.start c.initialArray program).after program (k + 1) := by
  obtain ⟨e, -⟩ | ⟨e, -⟩ | ⟨fault, e, hfailed, hnot, hhard⟩ :=
    c.endingAfter_cases program .boundary ((Snapshot.start c.initialArray program).after program k) <;>
    cases hend.symm.trans e
  rw [← fst_step_after] at hfailed
  exact ⟨hhard, _, _, collect_of_stop hk (advanced_of_endingAt hbefore) (hfailed ▸ Stop.of?_failed hnot),
    hfailed, toSnapshot_line_after _ _ _⟩

/-- **A trace agrees with a run.** Take a new session under the policy for the boundary, and trace the same
attempt. If an immediate run fails, a trace with the same limit ends with the same fault in the same
snapshot, and the command fails. If the run is judged, a trace with one more step succeeds, and its last
line shows the row that was judged and the number of steps of the verdict. If the run is paused, a trace
with the same limit prints that many lines, none of them completed or with a fault, and the command fails
for its limit. -/
theorem agrees_with_run (c : Challenge) (program : Program) (settings : List Session.Setting)
    (hpolicy : (Session.build c program settings).policy = .boundary) (limit : Nat) :
    let s₀ := Session.build c program settings
    let m := Machine.start c.initialArray program none
    let traced (limit : Nat) : Report := report limit (collect limit m).1 (collect limit m).2
    (∀ limit, (traced limit).out = Report.lines ((collect limit m).1.map fun l => l.toJson.compact)) ∧
    (∀ fault s, s₀.runImmediately limit = (.ended (.faulted fault), s) →
      ∃ before last, collect limit m = (before ++ [last], .failed fault) ∧
        last.shown? "error" = some fault.toJson ∧
        last.machine.toSnapshot = s.machine.toSnapshot ∧
        (traced limit).exit.code = 3 ∧
        (traced limit).err = Report.lines ["runtime error: " ++ fault.message]) ∧
    (∀ verdict s, s₀.runImmediately limit = (.ended (.finished verdict), s) →
      verdict = c.judge s.machine.toSnapshot ∧
      ∃ before last stop, collect (limit + 1) m = (before ++ [last], stop) ∧
        (traced (limit + 1)).exit.code = 0 ∧
        last.shown? "array" = some (Challenge.seatsToJson s.machine.array) ∧
        last.shown? "stepCount" = some (.nat verdict.stepCount.toNat)) ∧
    ∀ s, s₀.runImmediately limit = (.paused, s) →
      ∃ lines, collect limit m = (lines, .limit) ∧ lines.length = limit ∧
        (∀ l ∈ lines, l.shown? "completed" = some (.bool false) ∧ l.shown? "error" = none) ∧
        (traced limit).exit.code = 3 ∧
        (traced limit).err = Report.lines [s!"error: step limit of {limit} reached"] := by
  intro s₀ m traced
  have hcases := Session.runImmediately_build c program settings limit
  simp only [hpolicy] at hcases
  refine ⟨fun limit => out_report limit _ _, ?_, ?_, ?_⟩
  · intro fault s hrun
    simp only [s₀] at hrun
    rw [hrun] at hcases
    obtain ⟨h, -⟩ | ⟨k, ending, hk, hreply, hbefore, hending, hsnap⟩ := hcases
    · cases h
    · cases hreply
      obtain ⟨hhard, before, last, hcollect, houtcome, hlast⟩ := collect_of_faulted hk hbefore hending
      refine ⟨before, last, hcollect, ?_, hlast.trans hsnap.symm, ?_, ?_⟩
      · rw [shown?_error, houtcome]; rfl
      · simp only [traced, m, hcollect, report, hhard]; rfl
      · simp only [traced, m, hcollect, report, hhard]
  · intro verdict s hrun
    simp only [s₀] at hrun
    rw [hrun] at hcases
    obtain ⟨h, -⟩ | ⟨k, ending, hk, hreply, hbefore, hending, hsnap⟩ := hcases
    · cases h
    · cases hreply
      -- A run knows the end of the program by its place; a trace needs one more step to leave it.
      obtain ⟨hverdict, before, last, stop, hcollect, hexit, harray, hcount⟩ :=
        collect_of_finished hk hbefore hending
      rw [← hsnap] at hverdict harray hcount
      refine ⟨hverdict, before, last, stop, hcollect, ?_, ?_, ?_⟩
      · simp only [traced, m, hcollect, hexit]; rfl
      · rw [shown?_array, harray]
      · rw [shown?_stepCount, hcount, hverdict]; rfl
  · intro s hrun
    simp only [s₀] at hrun
    rw [hrun] at hcases
    obtain ⟨-, hnone⟩ | ⟨k, ending, -, hreply, -⟩ := hcases
    · have hadvanced := advanced_of_endingAt hnone
      have hcollect := collect_of_limit hadvanced
      refine ⟨_, hcollect, length_firstLines _ _, fun l hl => ?_, ?_, ?_⟩
      · obtain ⟨j, hj, rfl⟩ := mem_firstLines hl
        rw [shown?_completed, shown?_error, line, hadvanced j hj]
        exact ⟨rfl, rfl⟩
      · simp only [traced, m, hcollect, report]; rfl
      · simp only [traced, m, hcollect, report]
    · cases hreply

/-- A program that fails, one that is judged exactly at the limit, and one that spins. -/
theorem agrees_with_run_at_limit :
    let c : Challenge := { initialArray := [7, 0], targetArray := [7, 7] }
    let drop : Program := ⟨[.op .wait, .op (.put .moco)]⟩
    let copy : Program := ⟨[.op (.pick .moco), .op (.moveRight .moco), .op (.put .moco)]⟩
    let spin : Program := ⟨[.op (.label "spin"), .op (.jump "spin")]⟩
    let trace (program : Program) (limit : Nat) := collect limit (.start c.initialArray program none)
    (∃ s, (Session.build c drop []).runImmediately 2 = (.ended (.faulted (.handEmpty 0 1)), s) ∧
      ∃ before last, trace drop 2 = (before ++ [last], .failed (.handEmpty 0 1)) ∧
        last.machine.toSnapshot = s.machine.toSnapshot) ∧
    (∃ s, (Session.build c copy []).runImmediately 3 = (.ended (.finished ⟨.solved true, 3⟩), s) ∧
      ∃ before last stop, trace copy 4 = (before ++ [last], stop) ∧
        last.shown? "array" = some (Challenge.seatsToJson [7, 7]) ∧
        last.shown? "stepCount" = some (.nat 3)) ∧
    (∃ s, (Session.build c spin []).runImmediately 5 = (.paused, s) ∧
      ∃ lines, trace spin 5 = (lines, .limit) ∧ lines.length = 5) := by
  intro c drop copy spin trace
  have hdrop : ((Session.build c drop []).runImmediately 2).1 = .ended (.faulted (.handEmpty 0 1)) := by
    decide
  have hcopy : ((Session.build c copy []).runImmediately 3).1 = .ended (.finished ⟨.solved true, 3⟩) := by
    decide
  have hrow : ((Session.build c copy []).runImmediately 3).2.machine.array = [7, 7] := by decide
  have hspin : ((Session.build c spin []).runImmediately 5).1 = .paused := by decide
  obtain ⟨-, hfaulted, -, -⟩ := agrees_with_run c drop [] rfl 2
  obtain ⟨-, -, hfinished, -⟩ := agrees_with_run c copy [] rfl 3
  obtain ⟨-, -, -, hpaused⟩ := agrees_with_run c spin [] rfl 5
  generalize (Session.build c drop []).runImmediately 2 = dropped at hdrop hfaulted ⊢
  generalize (Session.build c copy []).runImmediately 3 = copied at hcopy hrow hfinished ⊢
  generalize (Session.build c spin []).runImmediately 5 = spun at hspin hpaused ⊢
  obtain ⟨_, s⟩ := dropped
  obtain ⟨_, s'⟩ := copied
  obtain ⟨_, s''⟩ := spun
  cases hdrop
  cases hcopy
  cases hspin
  refine ⟨⟨s, rfl, ?_⟩, ⟨s', rfl, ?_⟩, ⟨s'', rfl, ?_⟩⟩
  · obtain ⟨before, last, hcollect, -, hsnap, -⟩ := hfaulted _ s rfl
    exact ⟨before, last, hcollect, hsnap⟩
  · obtain ⟨-, before, last, stop, hcollect, -, harray, hcount⟩ := hfinished _ s' rfl
    exact ⟨before, last, stop, hcollect, hrow ▸ harray, hcount⟩
  · obtain ⟨lines, hcollect, hlength, -⟩ := hpaused s'' rfl
    exact ⟨lines, hcollect, hlength⟩

end Trace

end SeatMachine
