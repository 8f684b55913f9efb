import SeatMachine.Proofs.Machine.Course
import SeatMachine.Proofs.Machine.Hindrance
/-!
# Step accounting

What every step does to the flags, the count of steps and the stack, whatever state the machine is in. A step that
is done and leaves something to run is counted once, and `StackChange` says what it does to the stack: the
instruction at its top decides which of the four changes it is. A step that leaves the program is not counted, and
one that fails changes nothing.

`step_accounting` is the main theorem; along a run the count of steps never goes back (`stepCount_le_after`).
-/
namespace SeatMachine

namespace Snapshot

variable {program : Program} {s s' : Snapshot} {outcome : Outcome}

/-! ## Changes of the stack -/

/-- The instruction does more than go on to the next one: it is a jump that is taken, or a conditional that is
entered. -/
def Diverts (s : Snapshot) : Instruction → Prop
  | .op o => ∃ label, s.store.jumpLabel? o = some label
  | .branch c target _ =>
    ∃ hand seat, s.hand = some hand ∧ s.array[s.cursor target]? = some seat ∧ c.holds hand seat = true

/-- What a step that is done makes of the stack, innermost frame first. -/
inductive StackChange (program : Program) (s : Snapshot) : List Frame → Prop
  /-- The innermost block moves on by one place, and all frames around it stay. -/
  | onward {frame : Frame} {outer : List Frame} {i : Instruction} :
    s.stack = frame :: outer → frame.block[frame.pc]? = some i → ¬ s.Diverts i →
    StackChange program s (⟨frame.block, frame.pc + 1⟩ :: outer)
  /-- The body of the current conditional is put on top, and all frames stay. -/
  | into {frame : Frame} {outer : List Frame} {c : Comparison} {target : Cursor} {body : Block} :
    s.stack = frame :: outer → frame.block[frame.pc]? = some (.branch c target body) →
    s.Diverts (.branch c target body) →
    StackChange program s (⟨body, 0⟩ :: frame :: outer)
  /-- The innermost block is at its end and is left, and the one around it moves on by one place. -/
  | out {frame outer : Frame} {rest : List Frame} :
    s.stack = frame :: outer :: rest → frame.block.length ≤ frame.pc →
    StackChange program s (⟨outer.block, outer.pc + 1⟩ :: rest)
  /-- All blocks are left for the place of a label in the program. -/
  | away {frame : Frame} {outer : List Frame} {o : Operation} {label : String} {place : Nat} :
    s.stack = frame :: outer → frame.block[frame.pc]? = some (.op o) → s.store.jumpLabel? o = some label →
    program.resolve label = some place →
    StackChange program s [⟨program.block, place⟩]

theorem stackChange_of_advanced (h : Transition program s .advanced s') : StackChange program s s'.stack := by
  cases h with
  | leave hc => exact .out rfl (List.getElem?_eq_none_iff.1 hc)
  | operate hc hl _ =>
    refine .onward rfl hc ?_
    rintro ⟨label, hlabel⟩
    cases hl.symm.trans hlabel
  | jump hc hl hr => exact .away rfl hc hl hr
  | enter hc ht => exact .into rfl hc (Store.test_eq_ok_iff.1 ht)
  | pass hc ht =>
    refine .onward rfl hc ?_
    intro hentered
    cases ht.symm.trans (Store.test_eq_ok_iff.2 hentered)

end Snapshot

namespace Transition

variable {program : Program} {s s' : Snapshot} {outcome : Outcome}

/-! ## Flags and the count of steps -/

theorem isCompleted_iff (h : Transition program s outcome s') : outcome.isCompleted = true ↔ s'.stack = [] := by
  constructor
  · intro hcompleted
    cases outcome with
    | advanced => cases hcompleted
    | completed => cases h; rfl
    | failed fault =>
      have hfault : fault = .programCompleted := by cases fault <;> first | rfl | cases hcompleted
      subst hfault
      rw [h.eq_of_failed]
      exact Snapshot.stack_of_failed_programCompleted (congrArg Prod.fst h.eq_step)
  · intro hnil
    cases h with
    | idle => rfl
    | complete => rfl
    | _ => cases hnil

/-- A step that completes the program leaves its only block at the end, and changes nothing else. -/
theorem of_completed (h : Transition program s .completed s') :
    (∃ frame, s.stack = [frame] ∧ frame.block.length ≤ frame.pc) ∧ s'.store = s.store ∧
      s'.stepCount = s.stepCount := by
  cases h with
  | complete hc => exact ⟨⟨_, rfl, List.getElem?_eq_none_iff.1 hc⟩, rfl, rfl⟩

theorem toNat_stepCount (h : Transition program s .advanced s') (hcount : s.stepCount.toNat < wordMax) :
    s'.stepCount.toNat = s.stepCount.toNat + 1 := by
  rw [h.stepCount_of_advanced, UInt64.toNat_add]
  simp only [wordMax, UInt64.size] at hcount
  simp
  omega

theorem stepCount_le (h : Transition program s outcome s') (hcount : s.stepCount.toNat < wordMax) :
    s.stepCount ≤ s'.stepCount := by
  by_cases hadvanced : outcome = .advanced
  · subst hadvanced
    have hone := h.toNat_stepCount hcount
    rw [UInt64.le_iff_toNat_le]
    omega
  · rw [h.stepCount_of_ne_advanced hadvanced]
    exact UInt64.le_refl _

end Transition

namespace Machine

variable {m : Machine}

theorem transition_step (m : Machine) : Transition m.program m.toSnapshot m.step.1 m.step.2.toSnapshot :=
  Transition.of_step m.program m.toSnapshot

/-- Along a run the count never goes back, as long as there is room for it. -/
theorem stepCount_le_after {i : Nat} : ∀ {j : Nat}, i ≤ j →
    (∀ k, i ≤ k → k < j → (m.after k).stepCount.toNat < wordMax) →
      (m.after i).stepCount ≤ (m.after j).stepCount := by
  intro j hij hroom
  induction j with
  | zero =>
    have hi : i = 0 := by omega
    subst hi
    exact UInt64.le_refl _
  | succ j ih =>
    by_cases hi : i = j + 1
    · subst hi
      exact UInt64.le_refl _
    · have hsofar := ih (by omega) (fun k hk hlt => hroom k hk (by omega))
      have hlast := (m.after j).transition_step.stepCount_le (hroom j (by omega) (by omega))
      exact UInt64.le_trans hsofar hlast

/-- **Every step is accounted for.** Take a machine in any state whose cursors and count of steps are below the
greatest possible number. A step has a result; it is a success just if it has no fault, and completed just if
nothing is left to run. A success that completes the program found its last block at the end, and changes neither
the row, the cursors and the hand nor the count. Any other success raises the count by exactly one and changes the
stack as the current instruction dictates. From one place of a run to a later one the count never decreases, as long
as it has not reached the greatest number in between. -/
theorem step_accounting (m : Machine) (hmoco : m.moco < wordMax) (hchoco : m.choco < wordMax)
    (hcount : m.stepCount.toNat < wordMax) :
    (∃ outcome m', m.step? = some (outcome, m') ∧
      (outcome.isSuccess = true ↔ outcome.fault? = none) ∧
      (outcome.isCompleted = true ↔ m'.stack = []) ∧
      (outcome.isSuccess = true → outcome.isCompleted = true →
        (∃ frame, m.stack = [frame] ∧ frame.block.length ≤ frame.pc) ∧ m'.store = m.store ∧
          m'.stepCount = m.stepCount) ∧
      (outcome.isSuccess = true → outcome.isCompleted = false →
        m'.stepCount.toNat = m.stepCount.toNat + 1 ∧ m.StackChange m.program m'.stack)) ∧
    ∀ i j, i ≤ j → (∀ k, i ≤ k → k < j → (m.after k).stepCount.toNat < wordMax) →
      (m.after i).stepCount ≤ (m.after j).stepCount := by
  refine ⟨⟨m.step.1, m.step.2, step?_of_lt hmoco hchoco, ?_⟩, fun i j => stepCount_le_after⟩
  have h := m.transition_step
  generalize m.step.1 = outcome at h
  generalize m.step.2.toSnapshot = s' at h
  refine ⟨?_, h.isCompleted_iff, fun hsuccess hcompleted => ?_, fun hsuccess hcompleted => ?_⟩
  · cases outcome <;> simp [Outcome.isSuccess, Outcome.fault?]
  · cases outcome with
    | advanced => cases hcompleted
    | completed => exact h.of_completed
    | failed fault => cases hsuccess
  · cases outcome with
    | advanced => exact ⟨h.toNat_stepCount hcount, Snapshot.stackChange_of_advanced h⟩
    | completed => cases hcompleted
    | failed fault => cases hsuccess

/-- A body is left in a state that no run leads to: a cursor is off the row, and the stack is not the program's. -/
theorem step_accounting_leave_body :
    let block : Block := [.branch .equal .moco [], .op .wait]
    let m : Machine :=
      { array := [3], moco := 5, hand := some 1, stack := [⟨[], 0⟩, ⟨block, 0⟩], stepCount := 41
        history := .empty (some 1), program := ⟨[]⟩ }
    (m.moco < wordMax ∧ m.choco < wordMax ∧ m.stepCount.toNat < wordMax) ∧
      m.step.2.stack = [⟨block, 1⟩] ∧ m.step.2.stepCount.toNat = 42 ∧
      m.StackChange m.program m.step.2.stack ∧ (m.after 0).stepCount ≤ (m.after 1).stepCount := by
  intro block m
  have hmoco : m.moco < wordMax := by decide
  have hchoco : m.choco < wordMax := by decide
  have hcount : m.stepCount.toNat < wordMax := by decide
  obtain ⟨⟨outcome, m', hstep, -, -, -, hadvanced⟩, hrun⟩ := step_accounting m hmoco hchoco hcount
  obtain ⟨rfl, rfl⟩ : outcome = m.step.1 ∧ m' = m.step.2 :=
    Prod.mk.inj (Option.some.inj (hstep.symm.trans (step?_of_lt hmoco hchoco)))
  obtain ⟨hone, hstack⟩ := hadvanced rfl rfl
  refine ⟨⟨hmoco, hchoco, hcount⟩, rfl, hone, hstack, hrun 0 1 (Nat.zero_le 1) fun k _ hk => ?_⟩
  obtain rfl : k = 0 := by omega
  exact hcount

end Machine

end SeatMachine
