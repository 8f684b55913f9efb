import SeatMachine.Program
import SeatMachine.Proofs.General
/-!
# Labels

A name stands for the last place of the top-level block that holds a label of this name, and for no place if there is no
such label: `resolve_eq_some_iff` and `resolve_eq_none_iff`. What is inside bodies makes no difference.
-/
namespace SeatMachine

namespace Instruction

theorem isLabel_iff {name : String} {i : Instruction} : i.isLabel name = true ↔ i = .op (.label name) := by
  unfold isLabel
  split
  · simp
  · rename_i hnot
    simpa using hnot name

theorem labelName?_eq_some_iff {name : String} {i : Instruction} :
    i.labelName? = some name ↔ i = .op (.label name) := by
  unfold labelName?
  split
  · simp
  · rename_i hnot
    simpa using hnot name

/-- The instruction with nothing in its body. -/
def withoutBody : Instruction → Instruction
  | .op o => .op o
  | .branch comparison target _ => .branch comparison target []

theorem isLabel_withoutBody (name : String) (i : Instruction) : i.withoutBody.isLabel name = i.isLabel name := by
  cases i <;> rfl

theorem labelName?_withoutBody (i : Instruction) : i.withoutBody.labelName? = i.labelName? := by
  cases i <;> rfl

end Instruction

namespace Program

variable {p : Program} {block : Block} {name : String} {place : Nat}

/-! ## The place of a label -/

theorem lastLabel?_eq_none_iff : lastLabel? name block = none ↔ .op (.label name) ∉ block := by
  induction block with
  | nil => simp [lastLabel?]
  | cons i block ih =>
    rw [List.mem_cons, not_or, ← ih, @eq_comm _ _ i, ← Instruction.isLabel_iff, lastLabel?]
    cases lastLabel? name block with
    | some place => simp
    | none => simp

/-- There is a label at the place found, and none later. -/
theorem greatest_of_lastLabel? (h : lastLabel? name block = some place) :
    block[place]? = some (.op (.label name)) ∧
      ∀ other, block[other]? = some (.op (.label name)) → other ≤ place := by
  induction block generalizing place with
  | nil => cases h
  | cons i block ih =>
    rw [lastLabel?] at h
    cases hlast : lastLabel? name block with
    | some last =>
      rw [hlast] at h
      cases h
      obtain ⟨hlabel, hlater⟩ := ih hlast
      refine ⟨hlabel, fun other hother => ?_⟩
      cases other with
      | zero => exact Nat.zero_le _
      | succ other => exact Nat.succ_le_succ (hlater other hother)
    | none =>
      simp only [hlast, Option.ite_none_right_eq_some, Option.some.injEq] at h
      obtain ⟨hi, rfl⟩ := h
      refine ⟨by rw [Instruction.isLabel_iff.1 hi, List.getElem?_cons_zero], fun other hother => ?_⟩
      cases other with
      | zero => exact Nat.le_refl _
      | succ other =>
        rw [List.getElem?_cons_succ] at hother
        exact absurd (List.mem_of_getElem? hother) (lastLabel?_eq_none_iff.1 hlast)

theorem resolve_eq_none_iff : p.resolve name = none ↔ ∀ place : Nat, p.block[place]? ≠ some (.op (.label name)) := by
  rw [resolve, lastLabel?_eq_none_iff, List.mem_iff_getElem?, not_exists]

theorem resolve_eq_some_iff :
    p.resolve name = some place ↔
      p.block[place]? = some (.op (.label name)) ∧
        ∀ other : Nat, p.block[other]? = some (.op (.label name)) → other ≤ place := by
  refine ⟨greatest_of_lastLabel?, fun ⟨hlabel, hlater⟩ => ?_⟩
  cases hr : p.resolve name with
  | none => exact absurd hlabel (resolve_eq_none_iff.1 hr place)
  | some found =>
    obtain ⟨hfound, hlast⟩ := greatest_of_lastLabel? hr
    rw [Nat.le_antisymm (hlater found hfound) (hlast place hlabel)]

/-- A label that is found is inside the program. -/
theorem resolve_lt (h : p.resolve name = some place) : place < p.block.length :=
  (List.getElem?_eq_some_iff.1 (resolve_eq_some_iff.1 h).1).1

/-! ## The names of labels -/

theorem mem_labelNames_iff : name ∈ p.labelNames ↔ ∃ place : Nat, p.block[place]? = some (.op (.label name)) := by
  simp only [labelNames, List.mem_eraseDups, List.mem_filterMap, Instruction.labelName?_eq_some_iff, exists_eq_right]
  exact List.mem_iff_getElem?

theorem nodup_labelNames (p : Program) : p.labelNames.Nodup :=
  nodup_eraseDups _

/-! ## Bodies -/

def withoutBodies (p : Program) : Program :=
  ⟨p.block.map Instruction.withoutBody⟩

theorem resolve_withoutBodies (p : Program) (name : String) : p.withoutBodies.resolve name = p.resolve name := by
  unfold resolve withoutBodies
  induction p.block with
  | nil => rfl
  | cons i block ih => rw [List.map_cons, lastLabel?, lastLabel?, ih, Instruction.isLabel_withoutBody]

theorem labelNames_withoutBodies (p : Program) : p.withoutBodies.labelNames = p.labelNames := by
  simp only [labelNames, withoutBodies, List.filterMap_map, Function.comp_def, Instruction.labelName?_withoutBody]

end Program

end SeatMachine
