import SeatMachine.Proofs.Machine.Transition
/-!
# What an instruction checks

The conditions under which an instruction cannot be run, as a table: for each instruction the checks it makes, in
order, with the kind and the site of the fault it reports. `report?_of_transition` follows the cases of a step and
finds that the fault of a step is that of the first check that is violated. `fails_iff_violated` is the main theorem.
-/
namespace SeatMachine

/-! ## Checks -/

/-- A condition under which an instruction cannot be run, and what is reported then. -/
structure Check where
  violated : Bool
  kind : Fault.Kind
  site : Fault.Site
deriving DecidableEq, Repr

/-- What is reported of checks that are made in order. -/
def Check.report? (checks : List Check) : Option (Fault.Kind × Fault.Site) :=
  (checks.find? (·.violated)).map fun check => (check.kind, check.site)

def Fault.report (fault : Fault) : Fault.Kind × Fault.Site :=
  (fault.kind, fault.site)

namespace Store

def outside (st : Store) (target : Cursor) : Check :=
  ⟨st.array.length ≤ st.cursor target, .pointerOutOfRange, .cursor target⟩

/-- The checks that the instruction at `pc` inside `depth` bodies makes, in this order. -/
def checks (st : Store) (program : Program) (depth pc : Nat) : Instruction → List Check
  | .op (.moveLeft target) =>
    [st.outside target, ⟨st.cursor target = 0, .pointerOutOfRange, .cursor target⟩]
  | .op (.moveRight target) =>
    [st.outside target, ⟨st.cursor target + 1 = st.array.length, .pointerOutOfRange, .cursor target⟩]
  | .op (.moveToEnd target) => [⟨st.array = [], .pointerOutOfRange, .cursor target⟩]
  | .op (.setPointer _ index) =>
    [⟨index.toInt < 0 ∨ st.array.length ≤ index.toInt, .arrayIndexOutOfRange, .seat index⟩]
  | .op (.setValue target value) =>
    [⟨value < 0, .arrayIndexOutOfRange, .instruction depth pc⟩, st.outside target]
  | .op (.pick target) => [st.outside target]
  | .op (.put target) => [st.outside target, ⟨st.hand = none, .handEmpty, .instruction depth pc⟩]
  | .op .swap => [st.outside .moco, st.outside .choco]
  | .op (.swapWithNext target) =>
    [⟨st.array.length ≤ st.cursor target + 1, .pointerOutOfRange, .seats (st.cursor target) (st.cursor target + 1)⟩]
  | .op (.increment target) => [st.outside target]
  | .op (.decrement target) => [st.outside target]
  | .op (.ifEnd target label) =>
    [⟨st.cursor target + 1 = st.array.length ∧ program.resolve label = none, .labelNotFound, .instruction depth pc⟩]
  | .op (.ifMeet label) =>
    [⟨st.moco = st.choco ∧ program.resolve label = none, .labelNotFound, .instruction depth pc⟩]
  | .op (.jump label) => [⟨program.resolve label = none, .labelNotFound, .instruction depth pc⟩]
  | .op (.label _) => []
  | .op .wait => []
  | .op .unknown => [⟨true, .unknownInstruction, .instruction depth pc⟩]
  | .branch _ target _ => [⟨st.hand = none, .handEmpty, .instruction depth pc⟩, st.outside target]

end Store

/-! ## Computations that make checks -/

/-- A computation fails just if one of these checks is violated, with what the first of them reports. -/
def Makes {α : Type} (result : Except Fault α) (checks : List Check) : Prop :=
  match result with
  | .ok _ => Check.report? checks = none
  | .error fault => Check.report? checks = some fault.report

namespace Check

variable {check : Check} {checks : List Check}

theorem report?_cons_of_violated (h : check.violated = true) :
    report? (check :: checks) = some (check.kind, check.site) := by
  simp [report?, h]

theorem report?_cons_of_not_violated (h : check.violated = false) : report? (check :: checks) = report? checks := by
  simp [report?, h]

theorem isSome_report?_iff : (report? checks).isSome = true ↔ ∃ check ∈ checks, check.violated = true := by
  simp [report?]

end Check

namespace Makes

variable {α β : Type} {check : Check} {checks : List Check} {result : Except Fault α} {fault : Fault}

theorem pure (a : α) : Makes (.ok a) [] := rfl

/-- A check that is violated is the last one made. -/
theorem violated (h : check.violated = true) (hreport : fault.report = (check.kind, check.site)) :
    Makes (.error fault : Except Fault α) (check :: checks) := by
  simp only [Makes, Check.report?_cons_of_violated h, hreport]

/-- A check that is not violated makes no difference. -/
theorem passed (h : check.violated = false) (hrest : Makes result checks) : Makes result (check :: checks) := by
  unfold Makes at hrest ⊢
  rw [Check.report?_cons_of_not_violated h]
  exact hrest

theorem ite {c : Prop} [Decidable c] (hcheck : check.violated = true ↔ c)
    (hreport : fault.report = (check.kind, check.site)) (h : ¬ c → Makes result checks) :
    Makes (if c then .error fault else result) (check :: checks) := by
  by_cases hc : c
  · rw [if_pos hc]
    exact violated (hcheck.2 hc) hreport
  · rw [if_neg hc]
    exact passed (Bool.eq_false_iff.2 (mt hcheck.1 hc)) (h hc)

theorem bind_seat {st : Store} {target : Cursor} {next : Int64 → Except Fault β}
    (h : ∀ value, st.cursor target < st.array.length → Makes (next value) checks) :
    Makes (st.seat target >>= next) (st.outside target :: checks) := by
  by_cases hin : st.cursor target < st.array.length
  · rw [Store.seat_of_lt hin]
    exact passed (decide_eq_false (Nat.not_le.2 hin)) (h _ hin)
  · have hout := Nat.le_of_not_lt hin
    rw [Store.seat_of_le hout]
    exact violated (decide_eq_true hout) rfl

theorem bind_held {st : Store} {depth pc : Nat} {next : Int64 → Except Fault β}
    (h : ∀ value, Makes (next value) checks) :
    Makes (st.held depth pc >>= next) (⟨st.hand = none, .handEmpty, .instruction depth pc⟩ :: checks) := by
  unfold Store.held
  cases hhand : st.hand with
  | none => exact violated rfl rfl
  | some value => exact passed rfl (h value)

theorem report?_of_ok {a : α} (h : Makes result checks) (hresult : result = .ok a) : Check.report? checks = none := by
  rw [hresult] at h
  exact h

theorem report?_of_error (h : Makes result checks) (hresult : result = .error fault) :
    Check.report? checks = some fault.report := by
  rw [hresult] at h
  exact h

end Makes

namespace Store

variable {st : Store} {depth pc : Nat} {o : Operation}

/-- An operation that does not jump makes the checks of the table. -/
theorem makes_effect (program : Program) (hjump : st.jumpLabel? o = none)
    (hcursor : ∀ target, st.cursor target < wordMax) :
    Makes (st.effect depth pc o) (st.checks program depth pc (.op o)) := by
  cases o with
  | moveLeft target => exact .bind_seat fun _ _ => .ite decide_eq_true_iff rfl fun _ => .pure _
  | moveRight target =>
    -- The operation asks whether it can be done, the table whether it cannot.
    refine .bind_seat fun _ hin => ?_
    rw [← ite_not]
    exact .ite (by rw [decide_eq_true_iff]; omega) rfl fun _ => .pure _
  | moveToEnd target => exact .ite decide_eq_true_iff rfl fun _ => .pure _
  | setPointer target index =>
    rw [effect, ← ite_not]
    exact .ite (by rw [decide_eq_true_iff]; omega) rfl fun _ => .pure _
  | setValue target value => exact .ite decide_eq_true_iff rfl fun _ => .bind_seat fun _ _ => .pure _
  | pick target => exact .bind_seat fun _ _ => .pure _
  | put target => exact .bind_seat fun _ _ => .bind_held fun _ => .pure _
  | swap => exact .bind_seat fun _ _ => .bind_seat fun _ _ => .pure _
  | swapWithNext target =>
    by_cases hlast : st.array.length ≤ st.cursor target + 1
    · rw [effect_swapWithNext_of_le hlast]
      refine .violated (decide_eq_true hlast) ?_
      -- Below the greatest number, the neighbour that the fault points at is the next seat.
      simp only [Fault.report, Fault.kind, Fault.site, Nat.min_eq_left (hcursor target)]
    · have hnext := Nat.lt_of_not_le hlast
      simp only [effect, List.getElem?_eq_getElem (Nat.lt_of_succ_lt hnext), List.getElem?_eq_getElem hnext]
      exact .passed (decide_eq_false hlast) (.pure _)
  | increment target => exact .bind_seat fun _ _ => .pure _
  | decrement target => exact .bind_seat fun _ _ => .pure _
  | ifEnd target label =>
    have hnot : ¬ st.cursor target + 1 = st.array.length := by simpa [jumpLabel?] using hjump
    exact .passed (decide_eq_false fun h => hnot h.1) (.pure _)
  | ifMeet label =>
    have hnot : ¬ st.moco = st.choco := by simpa [jumpLabel?] using hjump
    exact .passed (decide_eq_false fun h => hnot h.1) (.pure _)
  | jump label => cases hjump
  | label name => exact .pure _
  | wait => exact .pure _
  | unknown => exact .violated rfl rfl

/-- A jump that is taken makes one check, of its label. -/
theorem checks_jump (program : Program) {label : String} (hjump : st.jumpLabel? o = some label) :
    st.checks program depth pc (.op o) = [⟨program.resolve label = none, .labelNotFound, .instruction depth pc⟩] := by
  rcases jumpLabel?_eq_some_iff.1 hjump with rfl | ⟨target, rfl, hend⟩ | ⟨rfl, hmeet⟩
  · rfl
  · simp [checks, hend]
  · simp [checks, hmeet]

/-- A conditional makes the checks of the table before it is decided. -/
theorem makes_test (program : Program) (c : Comparison) (target : Cursor) (body : Block) :
    Makes (st.test depth pc c target) (st.checks program depth pc (.branch c target body)) :=
  .bind_held fun _ => .bind_seat fun _ _ => .pure _

end Store

/-! ## Steps -/

theorem Outcome.isSuccess_eq_false_iff {outcome : Outcome} :
    outcome.isSuccess = false ↔ outcome.fault?.isSome = true := by
  cases outcome <;> simp [isSuccess, fault?]

namespace Snapshot

variable {program : Program} {s s' : Snapshot} {outcome : Outcome} {i : Instruction}

/-- A step at an instruction reports what its checks report. -/
theorem report?_of_transition (ht : Transition program s outcome s') (hcurrent : s.current? = some i)
    (hcursor : ∀ target, s.store.cursor target < wordMax) :
    Check.report? (s.store.checks program s.bodyDepth s.pc i) = outcome.fault?.map Fault.report := by
  cases ht with
  | idle => cases hcurrent
  | complete hc => cases hc.symm.trans hcurrent
  | leave hc => cases hc.symm.trans hcurrent
  | operate hc hl he =>
    cases hc.symm.trans hcurrent
    exact (Store.makes_effect program hl hcursor).report?_of_ok he
  | stuck hc hl he =>
    cases hc.symm.trans hcurrent
    exact (Store.makes_effect program hl hcursor).report?_of_error he
  | jump hc hl hr =>
    cases hc.symm.trans hcurrent
    exact (congrArg Check.report? (Store.checks_jump program hl)).trans (by rw [hr]; rfl)
  | lost hc hl hr =>
    cases hc.symm.trans hcurrent
    exact (congrArg Check.report? (Store.checks_jump program hl)).trans (by rw [hr]; rfl)
  | enter hc hd =>
    cases hc.symm.trans hcurrent
    exact (Store.makes_test program _ _ _).report?_of_ok hd
  | pass hc hd =>
    cases hc.symm.trans hcurrent
    exact (Store.makes_test program _ _ _).report?_of_ok hd
  | undecided hc hd =>
    cases hc.symm.trans hcurrent
    exact (Store.makes_test program _ _ _).report?_of_error hd

end Snapshot

namespace Machine

/-- **When a step fails.** A machine in any state, also one that no run leads to, with an instruction to run and no
cursor at the greatest number. Its step has a result. It fails just if one of the checks of the instruction is violated,
and it reports the kind and the site of the first one. -/
theorem fails_iff_violated (m : Machine) {i : Instruction} (hcurrent : m.current? = some i)
    (hmoco : m.moco < wordMax) (hchoco : m.choco < wordMax) :
    ∃ outcome m', m.step? = some (outcome, m') ∧
      (outcome.isSuccess = false ↔ ∃ check ∈ m.store.checks m.program m.bodyDepth m.pc i, check.violated = true) ∧
      outcome.fault?.map Fault.report = Check.report? (m.store.checks m.program m.bodyDepth m.pc i) := by
  have hcursor : ∀ target, m.store.cursor target < wordMax := by
    intro target
    cases target with
    | moco => exact hmoco
    | choco => exact hchoco
  have hreport := Snapshot.report?_of_transition (Transition.of_step m.program m.toSnapshot) hcurrent hcursor
  refine ⟨m.step.1, m.step.2, step?_of_lt hmoco hchoco, ?_, hreport.symm⟩
  rw [← Check.isSome_report?_iff, hreport, Option.isSome_map]
  exact Outcome.isSuccess_eq_false_iff

/-- Inside a body, with two checks violated: the cursor comes before the hand. -/
theorem fails_iff_violated_twice :
    let body : Block := [.op (.put .choco)]
    let program : Program := ⟨[.branch .equal .moco body]⟩
    let m : Machine :=
      { array := [3], choco := 4, stack := [⟨body, 0⟩, ⟨program.block, 0⟩], history := .empty none, program }
    (∀ check ∈ m.store.checks program 1 0 (.op (.put .choco)), check.violated = true) ∧
      ∃ outcome m', m.step? = some (outcome, m') ∧ outcome.isSuccess = false ∧
        outcome.fault?.map Fault.report = some (.pointerOutOfRange, .cursor .choco) := by
  intro body program m
  obtain ⟨outcome, m', hstep, hfails, hreport⟩ :=
    fails_iff_violated m (i := .op (.put .choco)) rfl (by decide) (by decide)
  exact ⟨by decide, outcome, m', hstep, hfails.2 ⟨_, List.mem_cons_self .., by decide⟩, hreport⟩

end Machine

end SeatMachine
