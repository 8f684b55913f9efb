import SeatMachine.Proofs.History.Editing
import SeatMachine.Proofs.Machine.Accounting
import SeatMachine.Proofs.Session.Settled
import SeatMachine.Proofs.Session.Ticking
/-!
# The count of steps and the history

A session without a limit on its history keeps one snapshot for every step of its machine that was not taken back, but
not every step is counted: one that fails is not, and neither is one that leaves the program. As long as no step has
ended the attempt, each was counted, so the history is as long as the count (`toNat_stepCount_after`); the step that ends
the attempt is the only one that can set the two apart, and `stepCount_of_faulted` and `stepCount_of_finished` say when.

The history then tells how often a step can be taken back, and where this leads: `replies_rewinds`. The main theorem is
`history_counts_steps`.
-/
namespace SeatMachine

/-! ## Counting along the course -/

/-- A step from the snapshot fails with a fault that the policy takes for soft. -/
def Snapshot.FailsSoftly (program : Program) (policy : Policy) (s : Snapshot) : Prop :=
  ∃ fault, (s.step program).1 = .failed fault ∧ policy fault = .soft

namespace Challenge

variable {c : Challenge} {program : Program} {policy : Policy} {k : Nat}

/-- As long as no step ends the attempt, each of them is counted. -/
theorem toNat_stepCount_after (hk : k ≤ wordMax) (hopen : ∀ j, j ≤ k → c.endingAt program policy j = none) :
    ((Snapshot.start c.initialArray program).after program k).stepCount.toNat = k := by
  induction k with
  | zero => rfl
  | succ k ih =>
    have hcount := ih (by omega) fun j hj => hopen j (by omega)
    have ht := Transition.of_step program ((Snapshot.start c.initialArray program).after program k)
    obtain ⟨-, hadvanced⟩ | ⟨e, -⟩ | ⟨fault, e, -⟩ :=
      c.endingAfter_cases program policy ((Snapshot.start c.initialArray program).after program k)
    · rw [hadvanced] at ht
      have hone := ht.toNat_stepCount (by omega)
      rw [Snapshot.after]
      omega
    · cases (hopen (k + 1) (Nat.le_refl _)).symm.trans e
    · cases (hopen (k + 1) (Nat.le_refl _)).symm.trans e

theorem stepCount_of_faulted {fault : Fault} (hk : k ≤ wordMax)
    (hopen : ∀ j, j ≤ k → c.endingAt program policy j = none)
    (hend : c.endingAt program policy (k + 1) = some (.faulted fault)) :
    ((Snapshot.start c.initialArray program).after program (k + 1)).stepCount.toNat = k := by
  have hcount := toNat_stepCount_after hk hopen
  have ht := Transition.of_step program ((Snapshot.start c.initialArray program).after program k)
  obtain ⟨e, -⟩ | ⟨e, -⟩ | ⟨fault', -, hfailed, -⟩ :=
    c.endingAfter_cases program policy ((Snapshot.start c.initialArray program).after program k)
  · cases hend.symm.trans e
  · cases hend.symm.trans e
  · rw [hfailed] at ht
    rw [Snapshot.after, ht.eq_of_failed, hcount]

theorem isCompleted_of_empty (hempty : program.block = []) (hopen : ∀ j, j ≤ k → c.endingAt program policy j = none) :
    (((Snapshot.start c.initialArray program).after program k).step program).1.isCompleted = true := by
  have hstart : (Snapshot.start c.initialArray program).AtEnd program := by
    refine Or.inr ?_
    simp [Snapshot.start, Program.length, hempty]
  have hfirst := (Snapshot.atEnd_iff_isCompleted (nested_start c.initialArray program)).1 hstart
  cases k with
  | zero => exact hfirst
  | succ k =>
    have hnot := (not_isCompleted_of_endingAfter (hopen 1 (by omega))).1
    rw [Snapshot.after] at hnot
    cases hfirst.symm.trans hnot

/-- The step with which an attempt is over is counted, unless it fails softly or leaves an empty program. -/
theorem stepCount_of_finished {verdict : Verdict} (hk : k < wordMax)
    (hopen : ∀ j, j ≤ k → c.endingAt program policy j = none)
    (hend : c.endingAt program policy (k + 1) = some (.finished verdict)) :
    let x := (Snapshot.start c.initialArray program).after program k
    let x' := (Snapshot.start c.initialArray program).after program (k + 1)
    (x.FailsSoftly program policy ∨ program.block = [] → x'.stepCount.toNat = k) ∧
      (¬ (x.FailsSoftly program policy ∨ program.block = []) → x'.stepCount.toNat = k + 1) := by
  intro x x'
  have hcount : x.stepCount.toNat = k := toNat_stepCount_after (Nat.le_of_lt hk) hopen
  have ht : Transition program x (x.step program).1 x' := Transition.of_step program x
  obtain ⟨e, -⟩ | ⟨-, ⟨hadvanced, -⟩ | hcompleted | hsoft⟩ | ⟨fault, e, -⟩ := c.endingAfter_cases program policy x
  · cases hend.symm.trans e
  · rw [hadvanced] at ht
    have hone := ht.toNat_stepCount (by omega)
    refine ⟨fun hor => ?_, fun _ => by omega⟩
    rcases hor with ⟨fault, hfailed, -⟩ | hempty
    · cases hadvanced.symm.trans hfailed
    · have hleft := isCompleted_of_empty hempty hopen
      rw [hadvanced] at hleft
      cases hleft
  · have hend' : x.AtEnd program := (Snapshot.atEnd_iff_isCompleted (nested_after c.initialArray program k)).2 hcompleted
    have hempty := (empty_of_atEnd (hopen k (Nat.le_refl k)) hend').1
    have hsame : x'.stepCount = x.stepCount := (Snapshot.eq_of_isCompleted hcompleted).2
    exact ⟨fun _ => by rw [hsame, hcount], fun hnot => absurd (Or.inr hempty) hnot⟩
  · obtain ⟨fault, hfailed, hpolicy⟩ := hsoft
    rw [hfailed] at ht
    have hsame := ht.eq_of_failed
    exact ⟨fun _ => by rw [hsame, hcount], fun hnot => absurd (Or.inl ⟨fault, hfailed, hpolicy⟩) hnot⟩
  · cases hend.symm.trans e

end Challenge

/-! ## Taking back all steps -/

namespace Machine

variable {m : Machine} {start : Snapshot} {k : Nat}

/-- Without a limit, every step but those taken back can be taken back. -/
theorem IsAt.exists_rewind (h : m.IsAt start (k + 1)) (hlimit : m.history.limit = none) :
    ∃ m', m.rewind? = some m' ∧ m'.IsAt start k ∧ m'.history.limit = none ∧ m'.program = m.program := by
  cases hr : m.rewind? with
  | none =>
    have hpop : m.history.pop? = none := by
      cases hp : m.history.pop? with
      | none => rfl
      | some popped => simp [rewind?, hp] at hr
    have hnil := History.pop?_eq_none_iff.1 hpop
    rw [h.all hlimit, Snapshot.past] at hnil
    cases hnil
  | some m' =>
    obtain ⟨-, hsame, hprogram⟩ := rewind?_eq_some hr
    obtain ⟨j, hj, hat⟩ := h.rewind hr
    cases hj
    exact ⟨m', rfl, hat, hsame.trans hlimit, hprogram⟩

/-- At the first place of a course there is nothing to take back. -/
theorem IsAt.eq_of_zero (h : m.IsAt start 0) (hlimit : m.history.limit = none) :
    m = { toSnapshot := start, history := .empty none, program := m.program } ∧ m.rewind? = none := by
  have hsnap : m.toSnapshot = start := h.snapshot
  have hnil : m.history.entries = [] := h.all hlimit
  have hhistory : m.history = .empty none := History.ext hlimit hnil
  constructor
  · obtain ⟨snapshot, history, program⟩ := m
    simp only at hsnap hhistory
    rw [hsnap, hhistory]
  · simp [rewind?, History.pop?_eq_none_iff.2 hnil]

end Machine

namespace Session

variable {s : Session}

/-! ## Steps in all -/

def awaitSteps (interval : Nat) (cancelAfter : Option Nat) : (alarms : Nat) → (time : Nat) → Session → Nat
  | 0, _, _ => 0
  | alarms + 1, time, s =>
    if s.switches.isPresentThrown || isDue cancelAfter time then 0
    else match s.tick with
      | (none, _) => 0
      | (some .advanced, s) => 1 + awaitSteps interval cancelAfter alarms (time + interval) s
      | (some _, _) => 1

def stepsOf (s : Session) : Op → Nat
  | .step => if s.status ≠ .running ∧ s.ending? = none then 1 else 0
  | .tick => if s.status = .running then 1 else 0
  | .run interval cancelAfter alarms =>
    if s.ending? = none then awaitSteps (max interval 1) cancelAfter alarms (max interval 1) s.start else 0
  | _ => 0

def stepsDone (s : Session) : List Op → Nat
  | [] => 0
  | op :: ops => s.stepsOf op + (s.apply op).2.stepsDone ops

theorem size_advance_le (s : Session) : s.advance.2.machine.history.size ≤ s.machine.history.size + 1 := by
  have hle := (History.entries_push_prefix s.machine.history s.machine.toSnapshot).length_le
  rw [s.advance_frame.1, Machine.history_step, History.size_eq, History.size_eq]
  simpa using hle

theorem size_await_le (interval : Nat) (cancelAfter : Option Nat) : ∀ (alarms time : Nat) (s : Session),
    (await interval cancelAfter alarms time s).2.machine.history.size ≤
      s.machine.history.size + awaitSteps interval cancelAfter alarms time s
  | 0, _, _ => Nat.le_refl _
  | alarms + 1, time, s => by
    rw [await, awaitSteps]
    split
    · exact Nat.le_refl _
    · have hadvance := s.size_advance_le
      obtain ⟨-, e⟩ | ⟨-, e⟩ := s.tick_cases
      · rw [e]
        exact Nat.le_refl _
      · rw [e]
        cases ha : s.advance.1 with
        | advanced =>
          have hrest := size_await_le interval cancelAfter alarms (time + interval) s.advance.2
          simp only
          omega
        | ended ending => exact hadvance
        | busy => exact hadvance

theorem size_apply_le (s : Session) (op : Op) :
    (s.apply op).2.machine.history.size ≤ s.machine.history.size + s.stepsOf op := by
  cases op with
  | step =>
    simp only [apply, stepsOf]
    obtain ⟨hr, e⟩ | ⟨ending, he, e⟩ | ⟨hr, he, e⟩ := s.step_cases
    · rw [e]; exact Nat.le_add_right _ _
    · rw [e]; exact Nat.le_add_right _ _
    · rw [e, if_pos ⟨hr, he⟩]
      exact size_advance_le { s with stepped := true }
  | tick =>
    simp only [apply, stepsOf]
    obtain ⟨-, e⟩ | ⟨hr, e⟩ := s.tick_cases
    · rw [e]; exact Nat.le_add_right _ _
    · rw [e, if_pos hr]
      exact s.size_advance_le
  | run interval cancelAfter alarms =>
    simp only [apply, stepsOf, run]
    cases he : s.ending? with
    | some ending => simp [start_of_ending?_eq_some he, he]
    | none =>
      have hstart := start_of_ending?_eq_none he
      have hopen : s.start.ending? = none := by rw [hstart]; rfl
      have hsame : s.start.machine = s.machine := by rw [hstart]
      simp only [hopen, if_true]
      rw [← hsame]
      exact size_await_le _ _ _ _ _
  | start =>
    simp only [apply]
    cases he : s.ending? with
    | some ending => rw [start_of_ending?_eq_some he]; exact Nat.le_add_right _ _
    | none => rw [start_of_ending?_eq_none he]; exact Nat.le_add_right _ _
  | rewind =>
    simp only [apply]
    obtain ⟨-, e⟩ | ⟨m, hm, e⟩ := s.rewind_cases
    · rw [e]; exact Nat.le_add_right _ _
    · -- A rewind takes an entry out of the history.
      have hentries := congrArg List.length (Machine.rewind?_eq_some hm).1
      rw [← History.size_eq, List.length_cons, ← History.size_eq] at hentries
      rw [e]
      simp only
      omega
  | reset => exact Nat.zero_le _
  | pause => exact Nat.le_add_right _ _
  | judge => exact Nat.le_add_right _ _
  | cancel handle => exact Nat.le_add_right _ _

theorem size_calls_le : ∀ (ops : List Op) (s : Session),
    (s.calls ops).machine.history.size ≤ s.machine.history.size + s.stepsDone ops
  | [], _ => Nat.le_refl _
  | op :: ops, s => by
    have hfirst := s.size_apply_le op
    have hrest := size_calls_le ops (s.apply op).2
    rw [calls, stepsDone]
    omega

/-! ## Histories without a limit -/

theorem invariant_limit (limit : Option Nat) :
    Invariant fun s => s.historyLimit = limit ∧ s.machine.history.limit = limit := by
  have hadvance : ∀ s : Session, s.historyLimit = limit ∧ s.machine.history.limit = limit →
      s.advance.2.historyLimit = limit ∧ s.advance.2.machine.history.limit = limit := by
    intro s h
    obtain ⟨status, lastFault, verdict, completions, e⟩ := s.advance_eq
    rw [e]
    exact ⟨h.1, (History.limit_push _ _).trans h.2⟩
  refine ⟨fun s h => ?_, fun s h => ?_, fun s h => ?_, fun s h => h, fun s h => ?_, fun s h => ⟨h.1, h.1⟩,
    fun s handle h => h⟩
  · obtain ⟨-, e⟩ | ⟨ending, -, e⟩ | ⟨-, -, e⟩ := s.step_cases
    · rw [e]; exact h
    · rw [e]; exact h
    · rw [e]; exact hadvance { s with stepped := true } h
  · cases he : s.ending? with
    | some ending => rw [start_of_ending?_eq_some he]; exact h
    | none => rw [start_of_ending?_eq_none he]; exact h
  · obtain ⟨-, e⟩ | ⟨-, e⟩ := s.tick_cases
    · rw [e]; exact h
    · rw [e]; exact hadvance s h
  · obtain ⟨-, e⟩ | ⟨m, hm, e⟩ := s.rewind_cases
    · rw [e]; exact h
    · rw [e]; exact ⟨h.1, (Machine.rewind?_eq_some hm).2.1.trans h.2⟩

theorem limit_build (c : Challenge) (program : Program) (settings : List Setting)
    (hlimit : (build c program settings).historyLimit = none) :
    (build c program settings).machine.history.limit = none ∧ (build c program settings).machine.history.size = 0 := by
  obtain ⟨policy, sink, limit, e⟩ := build_eq c program settings
  rw [e] at hlimit ⊢
  exact ⟨hlimit, rfl⟩

/-- The last step of the attempt failed, and the policy takes its fault for soft. -/
def EndedSoftly (s : Session) : Prop :=
  ∃ before, s.machine.history.last? = some before ∧ before.FailsSoftly s.program s.policy

namespace OnCourse

variable {c : Challenge} {program : Program} {policy : Policy} {k : Nat}

theorem size_history (h : OnCourse c program policy s k) (hlimit : s.machine.history.limit = none) :
    s.machine.history.size = k := by
  rw [History.size_eq, h.isAt.all hlimit, Snapshot.length_past]

theorem toList_history (h : OnCourse c program policy s k) (hlimit : s.machine.history.limit = none) :
    s.machine.history.toList = (List.range k).map ((Snapshot.start c.initialArray program).after program) := by
  rw [History.toList, h.isAt.all hlimit, Snapshot.reverse_of_prefix_past List.prefix_rfl, Snapshot.length_past,
    Nat.sub_self, List.range_eq_range', h.machine_eq]

theorem last?_history (h : OnCourse c program policy s (k + 1)) (hlimit : s.machine.history.limit = none) :
    s.machine.history.last? = some ((Snapshot.start c.initialArray program).after program k) := by
  rw [History.last?, h.isAt.all hlimit, h.machine_eq]
  rfl

/-- The newest entry of a history is the snapshot from which the last step was done. -/
theorem step_of_last? (h : OnCourse c program policy s k) (hlimit : s.machine.history.limit = none)
    {before : Snapshot} (hbefore : s.machine.history.last? = some before) :
    (before.step program).2 = s.machine.toSnapshot := by
  cases k with
  | zero =>
    rw [History.last?, h.isAt.all hlimit] at hbefore
    cases hbefore
  | succ k =>
    cases hbefore.symm.trans (h.last?_history hlimit)
    rw [h.isAt.snapshot, h.machine_eq]
    rfl

/-- Entries have counted the steps before them, and the first is the start. -/
theorem entry_of_getElem? (h : OnCourse c program policy s k) (hlimit : s.machine.history.limit = none)
    (hk : k < wordMax) {i : Nat} {entry : Snapshot} (hentry : s.machine.history.toList[i]? = some entry) :
    entry.stepCount.toNat = i ∧ (i = 0 → entry = .start c.initialArray program) := by
  rw [h.toList_history hlimit, List.getElem?_map, Option.map_eq_some_iff] at hentry
  obtain ⟨j, hj, rfl⟩ := hentry
  obtain ⟨hlt, hji⟩ := List.getElem?_eq_some_iff.1 hj
  rw [List.getElem_range] at hji
  rw [List.length_range] at hlt
  subst hji
  have hopen : ∀ j, j ≤ i → c.endingAt program policy j = none := fun j hj => h.before j (by omega)
  refine ⟨Challenge.toNat_stepCount_after (by omega) hopen, ?_⟩
  rintro rfl
  rfl

/-! ## The count at each status -/

theorem size_of_underway (h : OnCourse c program policy s k) (hlimit : s.machine.history.limit = none)
    (hk : k < wordMax) (he : s.ending? = none) : s.machine.history.size = s.machine.stepCount.toNat := by
  have hopen : ∀ j, j ≤ k → c.endingAt program policy j = none := fun j hj => h.goesOn he hj
  rw [h.size_history hlimit, h.isAt.snapshot, h.machine_eq, Challenge.toNat_stepCount_after (Nat.le_of_lt hk) hopen]

/-- An attempt that is over was ended by the step to the place where it stands. -/
theorem exists_last_step (h : OnCourse c program policy s k) {ending : Ending} (he : s.ending? = some ending) :
    ∃ j, k = j + 1 ∧ (∀ i, i ≤ j → c.endingAt program policy i = none) ∧
      c.endingAt program policy (j + 1) = some ending := by
  have hend := h.ending_eq.symm.trans he
  cases k with
  | zero => cases hend
  | succ j => exact ⟨j, rfl, fun i hi => h.before i (by omega), hend⟩

theorem size_of_faulted (h : OnCourse c program policy s k) (hlimit : s.machine.history.limit = none)
    (hk : k < wordMax) {fault : Fault} (he : s.ending? = some (.faulted fault)) :
    s.machine.history.size = s.machine.stepCount.toNat + 1 := by
  obtain ⟨j, rfl, hopen, hend⟩ := h.exists_last_step he
  rw [h.size_history hlimit, h.isAt.snapshot, h.machine_eq, Challenge.stepCount_of_faulted (by omega) hopen hend]

theorem size_of_finished (h : OnCourse c program policy s k) (hlimit : s.machine.history.limit = none)
    (hk : k < wordMax) {verdict : Verdict} (he : s.ending? = some (.finished verdict)) :
    (s.EndedSoftly ∨ program.block = [] → s.machine.history.size = s.machine.stepCount.toNat + 1) ∧
      (¬ (s.EndedSoftly ∨ program.block = []) → s.machine.history.size = s.machine.stepCount.toNat) := by
  obtain ⟨j, rfl, hopen, hend⟩ := h.exists_last_step he
  have hsoft : s.EndedSoftly ↔ ((Snapshot.start c.initialArray program).after program j).FailsSoftly program policy := by
    simp only [EndedSoftly, h.last?_history hlimit, h.program_eq, h.policy_eq, Option.some.injEq, exists_eq_left']
  obtain ⟨huncounted, hcounted⟩ := Challenge.stepCount_of_finished (by omega) hopen hend
  rw [h.size_history hlimit, h.isAt.snapshot, h.machine_eq, hsoft]
  exact ⟨fun hor => by rw [huncounted hor], fun hnot => by rw [hcounted hnot]⟩

end OnCourse

/-- Without a limit on the history, as many rewinds take back a step as the machine is from its start. They lead there,
and any more change nothing. -/
theorem replies_rewinds {start : Snapshot} (n : Nat) : ∀ {k : Nat} {s : Session}, s.machine.IsAt start k →
    s.machine.history.limit = none →
      s.replies (List.replicate (k + n) .rewind) =
        List.replicate k (.rewind true) ++ List.replicate n (.rewind false) ∧
      (s.calls (List.replicate (k + n) .rewind)).machine =
        { toSnapshot := start, history := .empty none, program := s.machine.program }
  | 0, s, hat, hlimit => by
    obtain ⟨hstart, hnone⟩ := hat.eq_of_zero hlimit
    have hrewind : s.apply .rewind = (.rewind false, s) := by
      obtain ⟨-, e⟩ | ⟨m, hm, -⟩ := s.rewind_cases
      · rw [apply, e]
      · cases hnone.symm.trans hm
    -- The session stays as it is from here on, so the count of further rewinds is all that is left.
    rw [Nat.zero_add]
    induction n with
    | zero => exact ⟨rfl, hstart⟩
    | succ n ih =>
      rw [List.replicate_succ, replies, calls, hrewind]
      exact ⟨congrArg _ ih.1, ih.2⟩
  | k + 1, s, hat, hlimit => by
    obtain ⟨m, hm, hat', hlimit', hprogram⟩ := hat.exists_rewind hlimit
    obtain ⟨hnone, -⟩ | ⟨m', hm', e⟩ := s.rewind_cases
    · cases hnone.symm.trans hm
    · cases hm.symm.trans hm'
      have hback : s.rewind.2.machine = m := by rw [e]
      have hrest := replies_rewinds n (hback ▸ hat') (hback ▸ hlimit')
      rw [Nat.add_right_comm, List.replicate_succ, replies, calls, apply]
      refine ⟨?_, by rw [hrest.2, hback, hprogram]⟩
      rw [hrest.1, e]
      rfl

/-- **The history tells how many steps were counted.** Take a session without a limit on its history, and any calls on it
that do fewer steps in all than the count can hold. Each entry of the history has counted as many steps as there are
entries before it; the first is the start of the attempt, and a step from the newest leads to where the machine stands.
An attempt that is not over has as many entries as it counts steps. One that has failed has one more, and so has one that
is over if its last step failed softly or the program is empty; any other that is over has as many as it counts. Just as
many rewinds as there are entries take back a step, and they lead to the machine of a new attempt. -/
theorem history_counts_steps (c : Challenge) (program : Program) (settings : List Setting)
    (hlimit : (build c program settings).historyLimit = none) (ops : List Op)
    (hsteps : (build c program settings).stepsDone ops < wordMax) :
    let s := (build c program settings).calls ops
    let history := s.machine.history
    let count := s.machine.stepCount.toNat
    (∀ i entry, history.toList[i]? = some entry →
      entry.stepCount.toNat = i ∧ (i = 0 → entry = .start c.initialArray program)) ∧
    (∀ before, history.last? = some before → (before.step program).2 = s.machine.toSnapshot) ∧
    (s.status = .ready ∨ s.status = .running ∨ s.status = .paused → history.size = count) ∧
    (s.status = .faulted → history.size = count + 1) ∧
    (s.status = .finished →
      (s.EndedSoftly ∨ program.block = [] → history.size = count + 1) ∧
      (¬ (s.EndedSoftly ∨ program.block = []) → history.size = count)) ∧
    ∀ n, s.replies (List.replicate (history.size + n) .rewind) =
        List.replicate history.size (.rewind true) ++ List.replicate n (.rewind false) ∧
      (s.calls (List.replicate (history.size + n) .rewind)).machine = .start c.initialArray program none := by
  intro s history count
  have hcoherent : Coherent s := coherent_calls c program settings ops
  obtain ⟨k, hk⟩ : ∃ k, OnCourse c program (build c program settings).policy s k :=
    (invariant_onCourse c program _).calls ops ⟨0, onCourse_build c program settings⟩
  obtain ⟨hnone, hempty⟩ := limit_build c program settings hlimit
  have hunlimited : history.limit = none := ((invariant_limit none).calls ops ⟨hlimit, hnone⟩).2
  have hsize : history.size = k := hk.size_history hunlimited
  have hlt : k < wordMax := by
    have hle : history.size ≤ _ := size_calls_le ops (build c program settings)
    rw [hempty] at hle
    omega
  refine ⟨fun i entry => hk.entry_of_getElem? hunlimited hlt, fun before => hk.step_of_last? hunlimited,
    fun hopen => ?_, fun hfaulted => ?_, fun hfinished => ?_, fun n => ?_⟩
  · refine hk.size_of_underway hunlimited hlt ?_
    rcases hopen with hs | hs | hs <;> simp only [ending?, hs]
  · obtain ⟨fault, hfault⟩ := Option.isSome_iff_exists.1 (hcoherent.faulted_iff.1 hfaulted)
    exact hk.size_of_faulted hunlimited hlt (Settled.faulted hfaulted hfault).ending?_eq
  · obtain ⟨verdict, hverdict⟩ := Option.isSome_iff_exists.1 (hcoherent.finished_iff.1 hfinished)
    exact hk.size_of_finished hunlimited hlt (Settled.finished hfinished hverdict).ending?_eq
  · obtain ⟨hreplies, hmachine⟩ := replies_rewinds n hk.isAt hunlimited
    rw [hsize]
    exact ⟨hreplies, hmachine.trans (by rw [hk.machine_eq]; rfl)⟩

/-- A step off the row as a soft stop and as a failure, an empty program, and a program that is done: only in the last
does the history have as many entries as steps were counted. -/
theorem history_counts_steps_at_each_ending :
    let c : Challenge := { initialArray := [3], targetArray := [4] }
    let off : Program := ⟨[.op (.increment .moco), .op (.moveRight .moco), .op (.pick .moco)]⟩
    let ops : List Op := [.step, .rewind, .step, .cancel ⟨0⟩, .reset, .step, .run 5 none 9]
    let soft := (build c off [.policy fun _ => .soft]).calls ops
    let hard := (build c off [.policy fun _ => .hard]).calls ops
    let empty := (build c ⟨[]⟩ []).calls [.step]
    let done := (build c ⟨[.op (.increment .moco)]⟩ []).calls [.start, .tick]
    let size := soft.machine.history.size
    (soft.status = .finished ∧ soft.EndedSoftly ∧ size = 2 ∧ size = soft.machine.stepCount.toNat + 1 ∧
      soft.replies (List.replicate (size + 1) .rewind) =
        List.replicate size (.rewind true) ++ [.rewind false] ∧
      (soft.calls (List.replicate size .rewind)).machine = .start c.initialArray off none) ∧
    (hard.status = .faulted ∧ hard.machine.history.size = hard.machine.stepCount.toNat + 1) ∧
    (empty.status = .finished ∧ empty.machine.history.size = empty.machine.stepCount.toNat + 1) ∧
    (done.status = .finished ∧ ¬ done.EndedSoftly ∧ done.machine.history.size = done.machine.stepCount.toNat) := by
  intro c off ops soft hard empty done size
  have hsoft : soft.EndedSoftly :=
    ⟨(Snapshot.start [3] off).after off 1, by decide, .cannotMove .moco 0, by decide, by decide⟩
  have hdone : ¬ done.EndedSoftly := by
    rintro ⟨before, hbefore, fault, hfailed, -⟩
    have hlast : done.machine.history.last? = some (.start [3] done.program) := by decide
    have hadvanced : ((Snapshot.start [3] done.program).step done.program).1 = .advanced := by decide
    cases hlast.symm.trans hbefore
    cases hadvanced.symm.trans hfailed
  have hfinished : soft.status = .finished ∧ empty.status = .finished ∧ done.status = .finished := by decide
  have hfaulted : hard.status = .faulted := by decide
  obtain ⟨-, -, -, -, hsofts, hrewinds⟩ :=
    history_counts_steps c off [.policy fun _ => .soft] rfl ops (by decide)
  obtain ⟨-, -, -, hfaults, -⟩ := history_counts_steps c off [.policy fun _ => .hard] rfl ops (by decide)
  obtain ⟨-, -, -, -, hempties, -⟩ := history_counts_steps c ⟨[]⟩ [] rfl [.step] (by decide)
  obtain ⟨-, -, -, -, hcounts, -⟩ :=
    history_counts_steps c ⟨[.op (.increment .moco)]⟩ [] rfl [.start, .tick] (by decide)
  -- Without the lower transparency, comparing the sizes would run the sessions.
  refine ⟨⟨hfinished.1, hsoft, by decide, ?_, ?_, ?_⟩, ⟨hfaulted, ?_⟩, ⟨hfinished.2.1, ?_⟩, hfinished.2.2, hdone, ?_⟩
  · with_reducible exact (hsofts hfinished.1).1 (Or.inl hsoft)
  · rw [← List.replicate_one]
    with_reducible exact (hrewinds 1).1
  · rw [← Nat.add_zero size]
    with_reducible exact (hrewinds 0).2
  · with_reducible exact hfaults hfaulted
  · with_reducible exact (hempties hfinished.2.1).1 (Or.inr rfl)
  · with_reducible exact (hcounts hfinished.2.2).2 (not_or.2 ⟨hdone, List.cons_ne_nil _ _⟩)

end Session

end SeatMachine
