import SeatMachine.Proofs.Machine.Course
import SeatMachine.Proofs.Machine.Hindrance
/-!
# Failed steps

A step that fails leaves the snapshot as it was, so it fails again in the same way: the machine stands still until it
is taken back (`step_eq_of_failed`, `after_of_failed`). A fault that points at an instruction points at the one that
was to be run (`located_of_failed`): its depth counts the frames around the innermost one, and its place is that of
the innermost frame.

Only the history tells a machine after a failed step from the machine before it. `failed_step_repeats` is the main
theorem.
-/
namespace SeatMachine

theorem Fault.site_ne_instruction {fault : Fault} (h : fault.kind = .pointerOutOfRange) (depth pc : Nat) :
    fault.site ≠ .instruction depth pc := by
  intro hsite
  cases fault <;> first | (cases h; done) | cases hsite

namespace Store

variable {st : Store} {depth pc depth' pc' : Nat} {fault : Fault}

/-- A hindrance that points at an instruction points at the one that is hindered. -/
theorem Hindrance.site_eq {o : Operation} (h : st.Hindrance depth pc o fault)
    (hsite : fault.site = .instruction depth' pc') : depth' = depth ∧ pc' = pc := by
  cases h with
  | edge hk => exact absurd hsite (Fault.site_ne_instruction hk _ _)
  | hand _ => cases hsite; exact ⟨rfl, rfl⟩
  | index _ => cases hsite
  | value _ => cases hsite; exact ⟨rfl, rfl⟩
  | unknown => cases hsite; exact ⟨rfl, rfl⟩

end Store

namespace Snapshot

variable {program : Program} {s : Snapshot} {fault : Fault}

theorem step_eq_of_failed (h : (s.step program).1 = .failed fault) : s.step program = (.failed fault, s) := by
  have ht := Transition.of_step program s
  rw [h] at ht
  exact Prod.ext h ht.eq_of_failed

theorem after_of_failed (h : (s.step program).1 = .failed fault) (k : Nat) : s.after program k = s := by
  induction k with
  | zero => rfl
  | succ k ih => rw [after, ih, step_eq_of_failed h]

/-- Something fails: there is nothing to run, or the current instruction cannot be run. -/
theorem run_of_failed (h : (s.step program).1 = .failed fault) :
    (s.stack = [] ∧ fault = .programCompleted) ∨
    ∃ frame outer i, s.stack = frame :: outer ∧ frame.current? = some i ∧ s.run program i = .error fault := by
  unfold step at h
  cases hs : s.stack with
  | nil =>
    rw [hs] at h
    cases h
    exact Or.inl ⟨rfl, rfl⟩
  | cons frame outer =>
    rw [hs] at h
    dsimp only at h
    cases hc : frame.current? with
    | none =>
      rw [hc] at h
      cases outer with
      | nil => cases h
      | cons outer rest => cases h
    | some i =>
      rw [hc] at h
      dsimp only at h
      cases hr : s.run program i with
      | ok s' => rw [hr] at h; cases h
      | error fault' =>
        rw [hr] at h
        cases h
        exact Or.inr ⟨frame, outer, i, rfl, hc, hr⟩

theorem site_of_failed (h : (s.step program).1 = .failed fault) {depth pc : Nat}
    (hsite : fault.site = .instruction depth pc) : depth = s.bodyDepth ∧ pc = s.pc := by
  rcases fault_of_failed h with
    ⟨-, hf⟩ | ⟨o, -, hh⟩ | ⟨o, label, -, -, -, hf⟩ | ⟨c, target, body, -, ⟨-, hf⟩ | hk⟩
  · rw [hf] at hsite; cases hsite
  · exact hh.site_eq hsite
  · rw [hf] at hsite; cases hsite; exact ⟨rfl, rfl⟩
  · rw [hf] at hsite; cases hsite; exact ⟨rfl, rfl⟩
  · exact absurd hsite (Fault.site_ne_instruction hk _ _)

/-- The frame that a fault points at is the innermost one, and its instruction is what failed. Depths are counted
from the outermost frame on. -/
theorem located_of_failed (h : (s.step program).1 = .failed fault) {depth pc : Nat}
    (hsite : fault.site = .instruction depth pc) :
    depth + 1 = s.stack.length ∧
      ∃ frame i, s.stack.reverse[depth]? = some frame ∧ frame.pc = pc ∧ frame.block[pc]? = some i ∧
        s.current? = some i ∧ s.run program i = .error fault := by
  obtain ⟨rfl, rfl⟩ := site_of_failed h hsite
  rcases run_of_failed h with ⟨-, hf⟩ | ⟨frame, outer, i, hs, hc, hr⟩
  · rw [hf] at hsite; cases hsite
  · have hdepth : s.bodyDepth = outer.length := by simp [bodyDepth, hs]
    have hpc : s.pc = frame.pc := by simp [pc, hs]
    rw [hdepth, hpc]
    refine ⟨by simp [hs], frame, i, ?_, rfl, hc, ?_, hr⟩
    · simp [hs]
    · simp [current?, hs, hc]

end Snapshot

namespace Machine

variable {m m' : Machine} {fault : Fault}

theorem step?_eq_some_iff {result : Outcome × Machine} :
    m.step? = some result ↔ m.isOverrun = false ∧ m.step = result := by
  unfold step?
  cases m.isOverrun with
  | true => simp
  | false => simp

/-- **A failed step is atomic, located and repeatable.** Take a machine in any state whose step fails. The snapshot
stays as it was, and the history gets that snapshot. If the fault points at an instruction, by how many bodies are
around it and by its place in the innermost of them, then the frame at that depth is the innermost one, it stands at
that place, and the instruction there is the one that was run and gave this fault. Any further step fails with the
same fault and leaves the same snapshot. -/
theorem failed_step_repeats (m m' : Machine) (fault : Fault) (h : m.step? = some (.failed fault, m')) :
    m'.toSnapshot = m.toSnapshot ∧ m'.history = m.history.push m.toSnapshot ∧ m'.program = m.program ∧
    (∀ depth pc, fault.site = .instruction depth pc →
      depth + 1 = m.stack.length ∧
        ∃ frame i, m.stack.reverse[depth]? = some frame ∧ frame.pc = pc ∧ frame.block[pc]? = some i ∧
          m.current? = some i ∧ m.run m.program i = .error fault) ∧
    ∀ k, (m'.after k).step? = some (.failed fault, m'.after (k + 1)) ∧
      (m'.after (k + 1)).toSnapshot = m.toSnapshot := by
  obtain ⟨hoverrun, hstep⟩ := step?_eq_some_iff.1 h
  have hfailed : (m.toSnapshot.step m.program).1 = .failed fault := by
    rw [← fst_step, hstep]
  have hm' : m' = m.step.2 := by rw [hstep]
  have hprogram : m'.program = m.program := by rw [hm', program_step]
  have hsnapshot : m'.toSnapshot = m.toSnapshot := by
    rw [hm', toSnapshot_step, Snapshot.step_eq_of_failed hfailed]
  have hafter : ∀ k, (m'.after k).toSnapshot = m.toSnapshot := by
    intro k
    rw [toSnapshot_after, hsnapshot, hprogram, Snapshot.after_of_failed hfailed]
  refine ⟨hsnapshot, by rw [hm', history_step], hprogram,
    fun depth pc hsite => Snapshot.located_of_failed hfailed hsite, fun k => ⟨?_, hafter (k + 1)⟩⟩
  refine step?_eq_some_iff.2 ⟨by rw [hafter k, hoverrun], Prod.ext ?_ rfl⟩
  rw [fst_step, hafter k, program_after, hprogram]
  exact hfailed

/-- A jump inside a body to a label that the program does not have, with a full history. -/
theorem failed_step_repeats_lost_jump :
    let body : Block := [.op .wait, .op (.jump "nowhere")]
    let program : Program := ⟨[.op .wait, .branch .equal .choco body]⟩
    let m : Machine :=
      { array := [3], moco := 5, hand := some 3, stack := [⟨body, 1⟩, ⟨program.block, 1⟩], stepCount := 7
        history := .empty (some 0), program }
    let fault : Fault := .labelNotFound "nowhere" 1 1
    m.step? = some (.failed fault, m.step.2) ∧ fault.site = .instruction 1 1 ∧
      m.step.2.toSnapshot = m.toSnapshot ∧
      (∃ frame i, m.stack.reverse[1]? = some frame ∧ frame.pc = 1 ∧ frame.block[1]? = some i ∧
        m.current? = some i ∧ m.run m.program i = .error fault) ∧
      ∀ k, (m.step.2.after k).step? = some (.failed fault, m.step.2.after (k + 1)) := by
  intro body program m fault
  have h : m.step? = some (.failed fault, m.step.2) := by decide
  obtain ⟨hsnapshot, -, -, hlocated, hagain⟩ := failed_step_repeats m m.step.2 fault h
  exact ⟨h, rfl, hsnapshot, (hlocated 1 1 rfl).2, fun k => (hagain k).1⟩

end Machine

end SeatMachine
