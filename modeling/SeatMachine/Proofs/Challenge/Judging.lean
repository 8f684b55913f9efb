import Mathlib.Order.Bounds.Basic
import SeatMachine.Verdict
/-!
# Judging

A verdict is a success just if the row is the target: `success_judge_iff`. Rows of equal length without a first
difference are the same, and a first difference is the least seat at which they differ (`isLeast_of_firstDifference?`).

What is found depends on the lengths and on the rows: `finding_of_length_ne`, `finding_of_array_ne` and
`finding_of_array_eq` are the three cases, and everything else in a verdict follows from what is found. The main
theorem, `judge_names_difference`, says what a verdict reports in each of them.
-/
namespace SeatMachine

/-! ## First differences -/

/-- Two rows of one length have no first difference just if they are the same. -/
theorem firstDifference?_eq_none_iff : ∀ {target actual : List Int64}, actual.length = target.length →
    (firstDifference? target actual = none ↔ actual = target)
  | [], [], _ => by simp [firstDifference?]
  | want :: target, got :: actual, h => by
    have ih := firstDifference?_eq_none_iff (Nat.succ.inj h)
    rw [firstDifference?]
    by_cases hw : want = got
    · simp [hw, ih]
    · simp [hw, Ne.symm hw]

def differences (target actual : List Int64) : Set Nat :=
  {seat | target[seat]? ≠ actual[seat]?}

/-- A first difference is the least, and it is found with both values. -/
theorem isLeast_of_firstDifference? : ∀ {target actual : List Int64} {seat : Nat} {want got : Int64},
    firstDifference? target actual = some (seat, want, got) →
      IsLeast (differences target actual) seat ∧ target[seat]? = some want ∧ actual[seat]? = some got
  | want' :: target, got' :: actual, seat, want, got, h => by
    rw [firstDifference?] at h
    split at h
    · next heq =>
      obtain ⟨⟨seat', found⟩, hrest, hfound⟩ := Option.map_eq_some_iff.1 h
      cases hfound
      obtain ⟨⟨hdiffers, hleast⟩, hvalues⟩ := isLeast_of_firstDifference? hrest
      refine ⟨⟨by simpa [differences] using hdiffers, fun k hk => ?_⟩, by simpa using hvalues⟩
      -- The first seats are alike, so every difference comes after them.
      cases k with
      | zero => exact absurd (congrArg some heq) hk
      | succ k => exact Nat.succ_le_succ (hleast (by simpa [differences] using hk))
    · next hne =>
      cases h
      exact ⟨⟨by simpa [differences] using hne, fun _ _ => Nat.zero_le _⟩, rfl, rfl⟩

/-! ## Verdicts -/

namespace Verdict

theorem success_of_optimized {v : Verdict} (h : v.optimized = true) : v.success = true := by
  obtain ⟨finding, steps⟩ := v
  cases finding with
  | solved optimized => rfl
  | _ => cases h

/-- The best message is that of the verdicts that are optimized, and of no others. -/
theorem message_eq_iff (v : Verdict) : v.message = "Challenge completed optimally!" ↔ v.optimized = true := by
  obtain ⟨finding, steps⟩ := v
  cases finding with
  | lengthMismatch expected actual =>
    -- The messages of failures begin with other letters.
    have hhead : (message ⟨.lengthMismatch expected actual, steps⟩).toList.head? = some 'A' := by
      simp [message, ToString.toString]
    refine ⟨fun h => ?_, fun h => nomatch h⟩
    rw [h] at hhead
    cases hhead
  | seatMismatch seat expected actual =>
    have hhead : (message ⟨.seatMismatch seat expected actual, steps⟩).toList.head? = some 'M' := by
      simp [message, ToString.toString]
    refine ⟨fun h => ?_, fun h => nomatch h⟩
    rw [h] at hhead
    cases hhead
  | solved optimized => cases optimized <;> simp [message, Verdict.optimized]

end Verdict

namespace Challenge

variable {c : Challenge} {s : Snapshot}

theorem finding_of_length_ne (h : s.array.length ≠ c.targetArray.length) :
    (c.judge s).finding = .lengthMismatch c.targetArray.length s.array.length := by
  simp [judge, h]

theorem finding_of_array_ne (hlength : s.array.length = c.targetArray.length) (h : s.array ≠ c.targetArray) :
    ∃ seat want got, IsLeast (differences c.targetArray s.array) seat ∧ c.targetArray[seat]? = some want ∧
      s.array[seat]? = some got ∧ (c.judge s).finding = .seatMismatch seat want got := by
  cases hfirst : firstDifference? c.targetArray s.array with
  | none => exact absurd ((firstDifference?_eq_none_iff hlength).1 hfirst) h
  | some difference =>
    obtain ⟨seat, want, got⟩ := difference
    obtain ⟨hleast, hwant, hgot⟩ := isLeast_of_firstDifference? hfirst
    exact ⟨seat, want, got, hleast, hwant, hgot, by simp [judge, hlength, hfirst]⟩

theorem finding_of_array_eq (h : s.array = c.targetArray) :
    (c.judge s).finding = .solved (c.isWithinBudget s.stepCount) := by
  have hnone : firstDifference? c.targetArray s.array = none :=
    (firstDifference?_eq_none_iff (congrArg List.length h)).2 h
  simp [judge, congrArg List.length h, hnone]

theorem success_judge_iff (c : Challenge) (s : Snapshot) : (c.judge s).success = true ↔ s.array = c.targetArray := by
  by_cases h : s.array = c.targetArray
  · simp [Verdict.success, finding_of_array_eq h, h]
  · by_cases hlength : s.array.length = c.targetArray.length
    · obtain ⟨seat, want, got, -, -, -, hfinding⟩ := finding_of_array_ne hlength h
      simp [Verdict.success, hfinding, h]
    · simp [Verdict.success, finding_of_length_ne hlength, h]

/-! ## Budgets -/

theorem isWithinBudget_iff {stepCount : UInt64} : c.isWithinBudget stepCount = true ↔
    c.maxSteps = none ∨ c.maxSteps = some 0 ∨ ∃ budget, c.maxSteps = some budget ∧ stepCount ≤ budget := by
  unfold isWithinBudget
  cases c.maxSteps <;> simp

theorem isWithinBudget_of_le {steps fewer : UInt64} (h : c.isWithinBudget steps = true) (hle : fewer ≤ steps) :
    c.isWithinBudget fewer = true := by
  rw [isWithinBudget_iff] at h ⊢
  refine h.imp_right (Or.imp_right ?_)
  rintro ⟨budget, hbudget, hsteps⟩
  exact ⟨budget, hbudget, UInt64.le_trans hle hsteps⟩

theorem optimized_judge_iff (c : Challenge) (s : Snapshot) :
    (c.judge s).optimized = true ↔ (c.judge s).success = true ∧ c.isWithinBudget s.stepCount = true := by
  constructor
  · intro h
    have hsuccess := Verdict.success_of_optimized h
    have hfinding := finding_of_array_eq ((c.success_judge_iff s).1 hsuccess)
    exact ⟨hsuccess, by simpa [Verdict.optimized, hfinding] using h⟩
  · rintro ⟨hsuccess, hbudget⟩
    have hfinding := finding_of_array_eq ((c.success_judge_iff s).1 hsuccess)
    simp [Verdict.optimized, hfinding, hbudget]

/-- **What a verdict says.** A snapshot is judged a success just if its row is the target. If the lengths differ, the
message names both; if they are equal but the rows are not, it names the least seat at which they differ, with both
values there. The steps are those of the snapshot. The verdict is optimized just if it is a success and there is no
budget, a budget of zero, or one that was kept; and it has the best message just then. So a success in fewer steps
is optimized if one in more steps is. -/
theorem judge_names_difference (c : Challenge) (s : Snapshot) :
    let v := c.judge s
    (v.success = true ↔ s.array = c.targetArray) ∧
    (s.array.length ≠ c.targetArray.length →
      v.message = s!"Array length mismatch: expected {c.targetArray.length}, got {s.array.length}") ∧
    (s.array.length = c.targetArray.length → s.array ≠ c.targetArray → ∃ (seat : Nat) (want got : Int64),
      IsLeast (differences c.targetArray s.array) seat ∧ c.targetArray[seat]? = some want ∧
      s.array[seat]? = some got ∧
      v.message = s!"Mismatch at seat {seat}: expected {want.toInt}, got {got.toInt}") ∧
    v.stepCount = s.stepCount ∧
    (v.optimized = true ↔ v.success = true ∧
      (c.maxSteps = none ∨ c.maxSteps = some 0 ∨ ∃ budget, c.maxSteps = some budget ∧ s.stepCount ≤ budget)) ∧
    (v.success = true → v.message =
      if v.optimized then "Challenge completed optimally!"
      else "Challenge completed! Try to optimize your solution.") ∧
    (v.message = "Challenge completed optimally!" ↔ v.optimized = true) ∧
    ∀ s' : Snapshot, (c.judge s').success = true → s'.stepCount ≤ s.stepCount → v.optimized = true →
      (c.judge s').optimized = true := by
  intro v
  have hoptimized := c.optimized_judge_iff s
  refine ⟨c.success_judge_iff s, fun hlength => ?_, fun hlength hne => ?_, rfl, ?_, fun hsuccess => ?_,
    v.message_eq_iff, fun s' hsuccess hle hv => ?_⟩
  · simp [v, Verdict.message, finding_of_length_ne hlength]
  · obtain ⟨seat, want, got, hleast, hwant, hgot, hfinding⟩ := finding_of_array_ne hlength hne
    exact ⟨seat, want, got, hleast, hwant, hgot, by simp [v, Verdict.message, hfinding]⟩
  · rw [← isWithinBudget_iff]
    exact hoptimized
  · have hfinding := finding_of_array_eq ((c.success_judge_iff s).1 hsuccess)
    cases hbudget : c.isWithinBudget s.stepCount <;>
      simp [v, Verdict.message, Verdict.optimized, hfinding, hbudget]
  · have hbudget := isWithinBudget_of_le (hoptimized.1 hv).2 hle
    exact (c.optimized_judge_iff s').2 ⟨hsuccess, hbudget⟩

/-- A row that is the start of the target, a row with two wrong seats, and the target in as many steps as the budget
allows and in fewer. -/
theorem judge_names_difference_four_rows :
    let c : Challenge := { initialArray := [3, 2, 1], targetArray := [1, 2, 3], maxSteps := some 4 }
    let row (array : List Int64) (stepCount : UInt64) : Snapshot := { array, stack := [], stepCount }
    (c.judge (row [1, 2] 4)).message = "Array length mismatch: expected 3, got 2" ∧
    (c.judge (row [1, -5, 7] 4)).message = "Mismatch at seat 1: expected 2, got -5" ∧
    (c.judge (row [1, 2, 3] 4)).optimized = true ∧ (c.judge (row [1, 2, 3] 3)).optimized = true := by
  intro c row
  obtain ⟨-, hlength, -⟩ := c.judge_names_difference (row [1, 2] 4)
  obtain ⟨-, -, hseat, -⟩ := c.judge_names_difference (row [1, -5, 7] 4)
  obtain ⟨hsuccess, -, -, -, hoptimized, -, -, hfewer⟩ := c.judge_names_difference (row [1, 2, 3] 4)
  obtain ⟨seat, want, got, hleast, hwant, hgot, hmessage⟩ := hseat rfl (by decide)
  have hone : IsLeast (differences c.targetArray (row [1, -5, 7] 4).array) 1 := by
    refine ⟨by simp [differences, c, row], fun k hk => Nat.pos_of_ne_zero ?_⟩
    rintro rfl
    exact hk rfl
  obtain rfl : seat = 1 := hleast.unique hone
  cases hwant
  cases hgot
  have hbest := hoptimized.2 ⟨hsuccess.2 rfl, .inr (.inr ⟨4, rfl, by decide⟩)⟩
  have hbetter := hfewer (row [1, 2, 3] 3) ((c.success_judge_iff _).2 rfl) (by decide) hbest
  exact ⟨(hlength (by decide)).trans (by decide), hmessage.trans (by decide), hbest, hbetter⟩

end Challenge

end SeatMachine
