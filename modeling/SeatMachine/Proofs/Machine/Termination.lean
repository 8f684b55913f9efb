import SeatMachine.Proofs.Machine.Evaluation
import SeatMachine.Proofs.Session.Safety
/-!
# Programs that only jump forward

A program can run for ever only by jumping back. If no jump inside an instruction of the program, at whatever depth,
leads to that instruction or to one before it, then every instruction is run at most once, and the machine halts.

The proof follows the structured meaning of instructions: a machine inside no body evaluates the instruction before
it in at most two steps for each instruction in it, and then stands inside no body again, at a later place
(`Instruction.occurs_of_jump`). What is left of the program has shrunk by the instruction. `halts_of_jumpsForward`
adds this up; `forward_jumps_halt` is the main theorem.
-/
namespace SeatMachine

/-! ## Jumping forward -/

/-- The label that an operation names as the place to jump to. -/
def Operation.destination? : Operation → Option String
  | .jump name | .ifEnd _ name | .ifMeet name => some name
  | _ => none

theorem Store.destination?_of_jumpLabel? {st : Store} {o : Operation} {label : String}
    (h : st.jumpLabel? o = some label) : o.destination? = some label := by
  rcases jumpLabel?_eq_some_iff.1 h with rfl | ⟨target, rfl, -⟩ | ⟨rfl, -⟩
  · rfl
  · rfl
  · rfl

/-- If the operation jumps at all, it jumps behind the `i`-th instruction of the program. -/
def Operation.LeadsBehind (program : Program) (i : Nat) (o : Operation) : Prop :=
  ∀ label, o.destination? = some label → ∀ place, program.resolve label = some place → i < place

/-- The place an operation can jump to is behind the `i`-th instruction, or there is none. -/
def Operation.leadsBehind (program : Program) (i : Nat) (o : Operation) : Bool :=
  (o.destination?.bind program.resolve).all (i < ·)

theorem Operation.leadsBehind_iff {program : Program} {i : Nat} {o : Operation} :
    o.leadsBehind program i = true ↔ o.LeadsBehind program i := by
  simp only [leadsBehind, LeadsBehind, Option.all_eq_true, Option.bind_eq_some_iff, decide_eq_true_eq]
  constructor
  · intro h label hlabel place hplace
    exact h place ⟨label, hlabel, hplace⟩
  · rintro h place ⟨label, hlabel, hplace⟩
    exact h label hlabel place hplace

namespace Program

/-- No jump that occurs inside an instruction of the program, itself included, names a label that stands for that
instruction or for one before it. -/
def JumpsForward (program : Program) : Prop :=
  ∀ i instruction, program.block[i]? = some instruction →
    ∀ o, (Instruction.op o).Occurs [instruction] → o.LeadsBehind program i

theorem jumpsForward_iff {program : Program} :
    (program.block.zipIdx.all fun item => item.1.all (Operation.leadsBehind program item.2)) = true ↔
      program.JumpsForward := by
  have hall : ∀ (i : Instruction) (test : Operation → Bool),
      i.all test = true ↔ ∀ o, (Instruction.op o).Occurs [i] → test o = true := by
    intro i test
    rw [← Instruction.allBlock_iff]
    simp [Instruction.allBlock]
  simp only [List.all_eq_true, Prod.forall, List.mem_zipIdx_iff_getElem?, hall, Operation.leadsBehind_iff]
  constructor
  · intro h i instruction hi
    exact h instruction i hi
  · intro h instruction i hi
    exact h i instruction hi

instance (program : Program) : Decidable program.JumpsForward :=
  decidable_of_iff _ jumpsForward_iff

end Program

/-! ## Where evaluations jump to -/

theorem Evaluation.flow_andThen {ev : Evaluation} {next : Store → Evaluation} {place : Nat}
    (h : (ev.andThen next).flow = .jump place) :
    ev.flow = .jump place ∨ (next ev.store).flow = .jump place := by
  unfold andThen at h
  split at h
  · exact Or.inr h
  · exact Or.inl h

namespace Instruction

variable {program : Program} {place : Nat}

mutual

/-- An evaluation that ends with a jump ends with one that occurs in the instruction. -/
theorem occurs_of_jump : ∀ (depth pc : Nat) (st : Store) (i : Instruction),
    (evaluate program depth pc st i).flow = .jump place →
      ∃ o label, (Instruction.op o).Occurs [i] ∧ o.destination? = some label ∧ program.resolve label = some place
  | depth, pc, st, .op o, h => by
    rw [evaluate, Store.evaluate] at h
    cases hl : st.jumpLabel? o with
    | none =>
      rw [hl] at h
      dsimp only at h
      split at h <;> cases h
    | some label =>
      rw [hl] at h
      dsimp only at h
      split at h
      · rename_i hr
        cases h
        exact ⟨o, label, .here (List.mem_singleton.2 rfl), Store.destination?_of_jumpLabel? hl, hr⟩
      · cases h
  | depth, pc, st, .branch c target body, h => by
    rw [evaluate] at h
    split at h
    · cases h
    · cases h
    · -- neither entering nor leaving a body jumps
      have hbody : (evaluateBlock program (depth + 1) 0 st body).flow = .jump place := by
        rcases Evaluation.flow_andThen h with h | h
        · rcases Evaluation.flow_andThen h with h | h
          · cases h
          · exact h
        · cases h
      obtain ⟨o, label, ho, hd, hr⟩ := occursBlock_of_jump (depth + 1) 0 st body hbody
      exact ⟨o, label, .inside (List.mem_singleton.2 rfl) ho, hd, hr⟩

theorem occursBlock_of_jump : ∀ (depth pc : Nat) (st : Store) (block : Block),
    (evaluateBlock program depth pc st block).flow = .jump place →
      ∃ o label, (Instruction.op o).Occurs block ∧ o.destination? = some label ∧ program.resolve label = some place
  | _, _, _, [], h => by
    rw [evaluateBlock] at h
    cases h
  | depth, pc, st, i :: rest, h => by
    rw [evaluateBlock] at h
    rcases Evaluation.flow_andThen h with h | h
    · obtain ⟨o, label, ho, hd, hr⟩ := occurs_of_jump depth pc st i h
      refine ⟨o, label, ?_, hd, hr⟩
      cases ho with
      | here hm => exact .here (List.mem_cons.2 (Or.inl (List.mem_singleton.1 hm)))
      | inside hm hin => exact .inside (List.mem_cons.2 (Or.inl (List.mem_singleton.1 hm))) hin
    · obtain ⟨o, label, ho, hd, hr⟩ := occursBlock_of_jump depth (pc + 1) _ rest h
      exact ⟨o, label, ho.cons, hd, hr⟩

end

/-! ## What is left of a program -/

theorem countBlock_drop {block : Block} {i : Nat} {instruction : Instruction} (h : block[i]? = some instruction) :
    countBlock (block.drop i) = instruction.count + countBlock (block.drop (i + 1)) := by
  obtain ⟨hi, rfl⟩ := List.getElem?_eq_some_iff.1 h
  rw [List.drop_eq_getElem_cons hi, countBlock]

theorem countBlock_drop_le (block : Block) {i j : Nat} (h : i ≤ j) :
    countBlock (block.drop j) ≤ countBlock (block.drop i) := by
  induction h with
  | refl => exact Nat.le_refl _
  | @step j _ ih =>
    refine Nat.le_trans ?_ ih
    cases hj : block[j]? with
    | none =>
      have hlen := List.getElem?_eq_none_iff.1 hj
      rw [List.drop_eq_nil_of_le (Nat.le_succ_of_le hlen)]
      exact Nat.zero_le _
    | some instruction =>
      rw [countBlock_drop hj]
      exact Nat.le_add_left _ _

end Instruction

/-! ## Halting -/

namespace Snapshot

variable {program : Program} {s s' : Snapshot}

/-- The machine does at most that many steps; the next one completes the program or fails. -/
def HaltsWithin (program : Program) (s : Snapshot) (bound : Nat) : Prop :=
  ∃ k s', s.Advances program k s' ∧ k ≤ bound ∧ (s'.step program).1 ≠ .advanced

theorem haltsWithin_of_ne_advanced (h : (s.step program).1 ≠ .advanced) (bound : Nat) : s.HaltsWithin program bound :=
  ⟨0, s, .refl program s, Nat.zero_le _, h⟩

/-- Steps that lead to where the machine halts are added to the bound. -/
theorem HaltsWithin.of_advances {k bound bound' : Nat} (hs : s.Advances program k s')
    (h : s'.HaltsWithin program bound) (hle : k + bound ≤ bound') : s.HaltsWithin program bound' := by
  obtain ⟨k', s'', hs', hk', hhalt⟩ := h
  exact ⟨k + k', s'', hs.trans hs', by omega, hhalt⟩

end Snapshot

open Instruction in
/-- Inside no body, the machine halts after at most two steps for each instruction that is left. -/
theorem halts_of_jumpsForward {program : Program} (hforward : program.JumpsForward) :
    ∀ (left i : Nat) (st : Store) (n : UInt64), program.block.length ≤ i + left →
      (st.snapshot [⟨program.block, i⟩] n).HaltsWithin program (2 * countBlock (program.block.drop i)) := by
  have hend : ∀ (i : Nat) (st : Store) (n : UInt64), Frame.current? ⟨program.block, i⟩ = none →
      ((st.snapshot [⟨program.block, i⟩] n).step program).1 ≠ .advanced := by
    intro i st n hc
    rw [(Transition.complete hc).eq_step]
    simp
  intro left
  -- The induction is on the number of top-level instructions behind the place: a jump lowers it as going on does.
  induction left with
  | zero =>
    intro i st n hi
    exact Snapshot.haltsWithin_of_ne_advanced (hend i st n (List.getElem?_eq_none hi)) _
  | succ left ih =>
    intro i st n hi
    cases hc : Frame.current? ⟨program.block, i⟩ with
    | none => exact Snapshot.haltsWithin_of_ne_advanced (hend i st n hc) _
    | some instruction =>
      have hcount : countBlock (program.block.drop i) = instruction.count + countBlock (program.block.drop (i + 1)) :=
        countBlock_drop hc
      have hcost := cost_evaluate_le program 0 i st instruction
      obtain ⟨s', hadvances, hstore, hreached⟩ := realizes_instruction program instruction st _ [] n hc
      simp only [List.length_nil] at hadvances hstore hreached
      -- Wherever the machine is inside no body and behind `i`, the rest is as long as the hypothesis allows.
      have hlater : ∀ place, i < place → s'.stack = [⟨program.block, place⟩] →
          (st.snapshot [⟨program.block, i⟩] n).HaltsWithin program (2 * countBlock (program.block.drop i)) := by
        intro place hplace hstack
        have hrest := ih place s'.store s'.stepCount (by omega)
        rw [← hstack, Store.snapshot_store] at hrest
        have hless := countBlock_drop_le program.block (i := i + 1) (j := place) hplace
        exact .of_advances hadvances hrest (by omega)
      cases hflow : (instruction.evaluate program 0 i st).flow with
      | normal =>
        rw [hflow] at hreached
        exact hlater (i + 1) (Nat.lt_succ_self i) hreached
      | jump place =>
        rw [hflow] at hreached
        obtain ⟨o, label, ho, hd, hr⟩ := occurs_of_jump 0 i st instruction hflow
        exact hlater place (hforward i instruction hc o ho label hd place hr) hreached
      | failed fault =>
        rw [hflow] at hreached
        have hfailed : s'.step program = (.failed fault, s') := hreached
        have hhalt : (s'.step program).1 ≠ .advanced := by
          rw [hfailed]
          simp
        exact .of_advances hadvances (Snapshot.haltsWithin_of_ne_advanced hhalt 0) (by omega)

/-- **A program that only jumps forward halts.** On any row, the machine does some number of steps, at most two for
each instruction of the program, those in bodies included; the next step completes the program or fails. The count of
steps is then no more than that, and exact if the bound fits into a word. -/
theorem forward_jumps_halt (array : List Int64) (program : Program) (limit : Option Nat)
    (hforward : program.JumpsForward) :
    let m := Machine.start array program limit
    ∃ k, (∀ j, j < k → (m.after j).step.1 = .advanced) ∧
      ((m.after k).step.1 = .completed ∨ ∃ fault, (m.after k).step.1 = .failed fault) ∧
      k ≤ 2 * program.instructionCount ∧
      (m.after (k + 1)).stepCount.toNat ≤ 2 * program.instructionCount ∧
      (2 * program.instructionCount < UInt64.size → (m.after (k + 1)).stepCount.toNat = k) := by
  intro m
  obtain ⟨k, s', hadvances, hk, hhalt⟩ :=
    halts_of_jumpsForward hforward program.block.length 0 m.store m.stepCount (Nat.le_add_left _ _)
  have hstart : m.store.snapshot [⟨program.block, 0⟩] m.stepCount = m.toSnapshot := rfl
  rw [hstart] at hadvances
  have hafter : (m.after k).toSnapshot = s' := (m.toSnapshot_after k).trans hadvances.after_eq
  have hlast : (m.after k).step.1 ≠ .advanced := by
    rw [Machine.fst_step, hafter, Machine.program_after]
    exact hhalt
  -- The last step is not counted; the count goes around at the end of its word.
  have hcount : (m.after (k + 1)).stepCount.toNat = k % UInt64.size := by
    have hsame : (m.after (k + 1)).stepCount = (m.after k).stepCount :=
      (Transition.of_step (m.after k).program (m.after k).toSnapshot).stepCount_of_ne_advanced hlast
    have hzero : m.stepCount = 0 := rfl
    rw [hsame, hafter, hadvances.stepCount_eq, hzero]
    simp [UInt64.size]
  refine ⟨k, fun j hj => ?_, ?_, hk, ?_, fun hfits => ?_⟩
  · rw [Machine.fst_step, Machine.toSnapshot_after, Machine.program_after]
    exact hadvances.advanced j hj
  · cases ho : (m.after k).step.1 with
    | advanced => exact absurd ho hlast
    | completed => exact Or.inl rfl
    | failed fault => exact Or.inr ⟨fault, rfl⟩
  · rw [hcount]
    exact Nat.le_trans (Nat.mod_le k _) hk
  · rw [hcount]
    exact Nat.mod_eq_of_lt (Nat.lt_of_le_of_lt hk hfits)

/-- A jump out of two bodies, past an instruction, on a row that makes it be taken. -/
theorem forward_jumps_halt_jump_out :
    let program : Program := ⟨[.op (.pick .moco),
      .branch .equal .moco [.op (.increment .moco), .branch .less .choco [.op (.ifMeet "out"), .op .wait]],
      .op (.jump "missing"), .op (.label "out")]⟩
    let m := Machine.start [4, 9] program (some 3)
    program.JumpsForward ∧ program.instructionCount = 8 ∧ (m.after 6).step.1 = .completed ∧
      ∃ k, (∀ j, j < k → (m.after j).step.1 = .advanced) ∧
        ((m.after k).step.1 = .completed ∨ ∃ fault, (m.after k).step.1 = .failed fault) ∧ k ≤ 16 ∧
        (m.after (k + 1)).stepCount.toNat = k := by
  intro program m
  have hforward : program.JumpsForward := by decide
  obtain ⟨k, hbefore, hend, hk, -, hcount⟩ := forward_jumps_halt [4, 9] program (some 3) hforward
  exact ⟨hforward, by decide, by decide, k, hbefore, hend, hk, hcount (by decide)⟩

end SeatMachine
