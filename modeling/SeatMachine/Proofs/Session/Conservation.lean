import SeatMachine.Proofs.Challenge.Judging
import SeatMachine.Proofs.General
import SeatMachine.Proofs.Machine.Change
import SeatMachine.Proofs.Machine.Nesting
import SeatMachine.Proofs.Session.Reporting
import SeatMachine.Proofs.Session.Safety
/-!
# Conservation of values

Three operations compute a value for a seat. A program without them only moves values around: all that stands in the
row or in the hand stood in the row at the start (`DrawnFrom`). If the program does not put the hand into a seat either,
all it can do to the row is to exchange seats, so the row stays a rearrangement of the one it started as.

Only operations of the program are ever done, so what each of them keeps of the store, a run keeps: `keeps_after`. A
challenge whose target is no rearrangement of its start is then out of reach, and no call on a session ever says that it
is solved. `values_conserved` is the main theorem.
-/
namespace SeatMachine

/-! ## What operations keep -/

/-- What is true of a store is true after the operation, too, if it is done. -/
def Operation.Keeps (P : Store → Prop) (o : Operation) : Prop :=
  ∀ (st st' : Store) (depth pc : Nat), st.effect depth pc o = .ok st' → P st → P st'

namespace Store

variable {st st' : Store} {o : Operation} {depth pc : Nat} {values : List Int64}

/-- Every value in the row and in the hand is one of these. -/
structure DrawnFrom (values : List Int64) (st : Store) : Prop where
  row : ∀ value ∈ st.array, value ∈ values
  hand : ∀ value, st.hand = some value → value ∈ values

theorem keeps_drawnFrom (ho : o.assigns = false) : o.Keeps (DrawnFrom values) := by
  intro st st' depth pc he h
  cases change_of_effect he with
  | rest => exact h
  | move => exact ⟨by simpa using h.row, by simpa using h.hand⟩
  | pick hseat =>
    refine ⟨h.row, fun value hvalue => ?_⟩
    cases hvalue
    exact h.row _ (List.mem_of_getElem? hseat)
  | put _ hhand =>
    refine ⟨fun value hvalue => ?_, h.hand⟩
    rcases List.mem_or_eq_of_mem_set hvalue with hold | rfl
    · exact h.row value hold
    · exact h.hand value hhand
  | assign hassigns => rw [ho] at hassigns; cases hassigns
  | exchange hi hj =>
    refine ⟨fun value hvalue => ?_, h.hand⟩
    exact h.row value ((perm_exchange hi hj).mem_iff.1 hvalue)

theorem keeps_perm (ho : o.assigns = false) (hput : ∀ target, o ≠ .put target) :
    o.Keeps fun st => st.array.Perm values := by
  intro st st' depth pc he h
  cases change_of_effect he with
  | rest => exact h
  | move => simpa using h
  | pick => exact h
  | put => exact absurd rfl (hput _)
  | assign hassigns => rw [ho] at hassigns; cases hassigns
  | exchange hi hj => exact (perm_exchange hi hj).trans h

end Store

/-! ## What runs keep -/

namespace Snapshot

variable {program : Program} {s s' : Snapshot} {outcome : Outcome} {P : Store → Prop}

/-- One step: if it does an operation, it is one of the program. -/
theorem keeps_transition (hkeeps : ∀ o, program.Contains (.op o) → o.Keeps P)
    (ht : Transition program s outcome s') (hn : Nested program s.stack) (h : P s.store) : P s'.store := by
  cases ht with
  | @operate st st' frame outer n o hc hl he =>
    have hcontains : program.Contains (.op o) := contains_of_nested hn (.here (Frame.mem_block hc))
    exact hkeeps o hcontains st st' outer.length frame.pc he h
  | idle => exact h
  | complete => exact h
  | leave => exact h
  | jump => exact h
  | enter => exact h
  | pass => exact h
  | stuck => exact h
  | lost => exact h
  | undecided => exact h

theorem keeps_after {array : List Int64} (hkeeps : ∀ o, program.Contains (.op o) → o.Keeps P)
    (h₀ : P (start array program).store) (k : Nat) : P ((start array program).after program k).store := by
  induction k with
  | zero => exact h₀
  | succ k ih => exact keeps_transition hkeeps (Transition.of_step program _) (nested_after array program k) ih

/-- Without an operation that computes a value, there are never values that were not there at the start. -/
theorem drawnFrom_after (array : List Int64) (hassigns : ∀ o, program.Contains (.op o) → o.assigns = false) (k : Nat) :
    ((start array program).after program k).store.DrawnFrom array := by
  refine keeps_after (fun o ho => Store.keeps_drawnFrom (hassigns o ho)) ⟨fun value hvalue => hvalue, ?_⟩ k
  intro value hvalue
  cases hvalue

/-- If the hand is not put into a seat either, the row is only rearranged. -/
theorem perm_after (array : List Int64) (hassigns : ∀ o, program.Contains (.op o) → o.assigns = false)
    (hput : ∀ target, ¬ program.Contains (.op (.put target))) (k : Nat) :
    ((start array program).after program k).array.Perm array := by
  refine keeps_after (P := fun st => st.array.Perm array) (fun o ho => ?_) (List.Perm.refl array) k
  refine Store.keeps_perm (hassigns o ho) ?_
  rintro target rfl
  exact hput target ho

end Snapshot

/-! ## Challenges out of reach -/

namespace Session

variable {c : Challenge} {program : Program} {policy : Policy} {s : Session}

theorem Coherent.eq_judge_of_ending? (h : Coherent s) {verdict : Verdict}
    (he : s.ending? = some (.finished verdict)) : verdict = s.judge := by
  unfold ending? at he
  split at he
  · obtain ⟨stored, hstored, hsame⟩ := Option.map_eq_some_iff.1 he
    cases hsame
    exact h.verdict_eq _ hstored
  · obtain ⟨fault, -, hsame⟩ := Option.map_eq_some_iff.1 he
    cases hsame
  · cases he

/-- A coherent session on the course of its attempt, of which no place has the row of the target. -/
structure OutOfReach (c : Challenge) (program : Program) (policy : Policy) (s : Session) : Prop where
  attempt : Coherent s ∧ ∃ k, OnCourse c program policy s k
  missed : ∀ k, ((Snapshot.start c.initialArray program).after program k).array ≠ c.targetArray

namespace OutOfReach

theorem apply (h : OutOfReach c program policy s) (op : Op) : OutOfReach c program policy (s.apply op).2 :=
  ⟨(invariant_coherent.and (invariant_onCourse c program policy)).apply h.attempt op, h.missed⟩

theorem calls (h : OutOfReach c program policy s) (ops : List Op) : OutOfReach c program policy (s.calls ops) :=
  ⟨(invariant_coherent.and (invariant_onCourse c program policy)).calls ops h.attempt, h.missed⟩

theorem success_judge (h : OutOfReach c program policy s) : s.judge.success = false := by
  obtain ⟨k, hk⟩ := h.attempt.2
  have harray : s.machine.array = ((Snapshot.start c.initialArray program).after program k).array := by
    rw [hk.isAt.snapshot, hk.machine_eq]
  refine Bool.eq_false_iff.2 fun hsuccess => h.missed k ?_
  rw [← harray, ← hk.challenge_eq]
  exact (Challenge.success_judge_iff _ _).1 hsuccess

/-- The verdict that a session keeps is no success. -/
theorem success_of_verdict (h : OutOfReach c program policy s) {verdict : Verdict} (hv : s.verdict = some verdict) :
    verdict.success = false := by
  rw [h.attempt.1.verdict_eq verdict hv]
  exact h.success_judge

theorem success_of_mem_endings (h : OutOfReach c program policy s) {ops : List Op} {verdict : Verdict}
    (hv : .finished verdict ∈ s.endings ops) : verdict.success = false := by
  have hkept := invariant_coherent.and (invariant_onCourse c program policy)
  obtain ⟨s', hs', he⟩ := hkept.exists_of_mem_endings h.attempt hv
  have h' : OutOfReach c program policy s' := ⟨hs', h.missed⟩
  rw [hs'.1.eq_judge_of_ending? he]
  exact h'.success_judge

theorem success_of_mem_replies {verdict : Verdict} : ∀ {ops : List Op} {s : Session},
    OutOfReach c program policy s → .verdict verdict ∈ s.replies ops → verdict.success = false
  | [], _, _, hv => by cases hv
  | op :: ops, s, h, hv => by
    rcases List.mem_cons.1 hv with hnow | hlater
    · cases op with
      | judge => cases hnow; exact h.success_judge
      | _ => cases hnow
    · exact success_of_mem_replies (h.apply op) hlater

theorem completions_calls : ∀ (ops : List Op) {s : Session}, OutOfReach c program policy s →
    (s.calls ops).completions = s.completions
  | [], _, _ => rfl
  | op :: ops, s, h => by
    have h' := h.apply op
    have hnot : ∀ verdict, ¬ Solved s (s.apply op).2 verdict := by
      intro verdict hsolved
      cases hsolved.success.symm.trans (h'.success_of_verdict hsolved.verdict_eq)
    rw [Session.calls, completions_calls ops h']
    exact completions_of_not_solved (reportsExactly_apply h.attempt.1 op) h'.attempt.1 hnot

end OutOfReach

/-- **Values are conserved.** Take a program without an operation that computes a value for a seat, at any depth. After
any steps, failed ones included, and rewinds from the start on a row, every value in the row and in the hand, of the
machine and of every snapshot in its history, stood in the row at the start. If the program does not put the hand into a
seat either, every row is a rearrangement of the one at the start; and on a challenge whose target is no rearrangement
of its start, no calls, in whatever order, make a session reply with a success, keep one as its verdict or report a
completion. -/
theorem values_conserved (program : Program) (hassigns : ∀ o, program.Contains (.op o) → o.assigns = false) :
    (∀ (array : List Int64) (limit : Option Nat) (as : List Move),
      let m := (Machine.start array program limit).moves as
      ∀ s ∈ m.toSnapshot :: m.history.toList,
        (∀ value ∈ s.array, value ∈ array) ∧ ∀ value, s.hand = some value → value ∈ array) ∧
    ((∀ target, ¬ program.Contains (.op (.put target))) →
      (∀ (array : List Int64) (limit : Option Nat) (as : List Move),
        let m := (Machine.start array program limit).moves as
        ∀ s ∈ m.toSnapshot :: m.history.toList, s.array.Perm array) ∧
      ∀ c : Challenge, ¬ c.targetArray.Perm c.initialArray → ∀ (settings : List Setting) (ops : List Op),
        let s₀ := build c program settings
        (∀ verdict, .finished verdict ∈ s₀.endings ops → verdict.success = false) ∧
        (∀ verdict, .verdict verdict ∈ s₀.replies ops → verdict.success = false) ∧
        (∀ verdict, (s₀.calls ops).verdict = some verdict → verdict.success = false) ∧
        (s₀.calls ops).completions = []) := by
  refine ⟨?_, fun hput => ⟨?_, ?_⟩⟩
  · intro array limit as m s hs
    obtain ⟨k, rfl⟩ := Machine.exists_after_of_mem hs
    have h := Snapshot.drawnFrom_after array hassigns k
    exact ⟨h.row, h.hand⟩
  · intro array limit as m s hs
    obtain ⟨k, rfl⟩ := Machine.exists_after_of_mem hs
    exact Snapshot.perm_after array hassigns hput k
  · intro c htarget settings ops s₀
    have hmissed : ∀ k, ((Snapshot.start c.initialArray program).after program k).array ≠ c.targetArray := by
      intro k hreached
      have hperm := Snapshot.perm_after c.initialArray hassigns hput k
      rw [hreached] at hperm
      exact htarget hperm
    have h : OutOfReach c program s₀.policy s₀ :=
      ⟨⟨coherent_build c program settings, 0, onCourse_build c program settings⟩, hmissed⟩
    have hnew : s₀.completions = [] := by
      obtain ⟨policy, sink, limit, e⟩ := build_eq c program settings
      simp only [s₀, e, new]
    refine ⟨fun verdict => h.success_of_mem_endings, fun verdict => h.success_of_mem_replies,
      fun verdict => (h.calls ops).success_of_verdict, ?_⟩
    rw [h.completions_calls ops, hnew]

/-- A program that sorts two seats inside a conditional, on a challenge that asks for a third value; and one that copies
a seat over another. -/
theorem values_conserved_sort_and_copy :
    let sort : Program := ⟨[.op (.pick .moco), .op (.moveRight .choco), .branch .greater .choco [.op .swap]]⟩
    let copy : Program := ⟨[.op (.pick .moco), .op (.moveRight .moco), .op (.put .moco)]⟩
    let c : Challenge := { initialArray := [5, 4], targetArray := [4, 6] }
    let ops : List Op := [.step, .step, .start, .tick, .tick, .rewind, .judge, .run 1 none 9]
    let m := (Machine.start [5, 4] copy (some 2)).moves [.step, .step, .rewind, .step, .step]
    (m.array = [5, 5] ∧ ∀ value ∈ m.array, value ∈ [5, 4]) ∧
    (((build c sort []).calls ops).machine.array = [4, 5] ∧
      .finished ⟨.seatMismatch 1 6 5, 5⟩ ∈ (build c sort []).endings ops ∧
      (∀ verdict, .finished verdict ∈ (build c sort []).endings ops → verdict.success = false) ∧
      ((Machine.start [5, 4] sort none).moves [.step, .step, .step, .step]).array.Perm [5, 4]) := by
  intro sort copy c ops m
  have hsort : ∀ o, sort.Contains (.op o) → o.assigns = false ∧ ∀ target, o ≠ .put target := by
    intro o ho
    have htest : Instruction.allBlock
        (fun o => !o.assigns && decide (o ≠ .put .moco) && decide (o ≠ .put .choco)) sort.block = true := by decide
    have hpassed := Instruction.allBlock_iff.1 htest o ho
    simp only [Bool.and_eq_true, Bool.not_eq_true', decide_eq_true_eq] at hpassed
    refine ⟨hpassed.1.1, fun target => ?_⟩
    cases target with
    | moco => exact hpassed.1.2
    | choco => exact hpassed.2
  have hcopy : ∀ o, copy.Contains (.op o) → o.assigns = false := by
    intro o ho
    have htest : Instruction.allBlock (fun o => !o.assigns) copy.block = true := by decide
    simpa using Instruction.allBlock_iff.1 htest o ho
  have htarget : ¬ c.targetArray.Perm c.initialArray := by decide
  obtain ⟨hdrawn, -⟩ := values_conserved copy hcopy
  obtain ⟨-, hsession⟩ := values_conserved sort fun o ho => (hsort o ho).1
  obtain ⟨hperm, hunsolved⟩ := hsession fun target ht => (hsort _ ht).2 target rfl
  refine ⟨⟨by decide, ?_⟩, by decide, by decide, (hunsolved c htarget [] ops).1, ?_⟩
  · exact (hdrawn [5, 4] (some 2) [.step, .step, .rewind, .step, .step] m.toSnapshot (List.mem_cons_self ..)).1
  · exact hperm [5, 4] none [.step, .step, .step, .step] _ (List.mem_cons_self ..)

end Session

end SeatMachine
