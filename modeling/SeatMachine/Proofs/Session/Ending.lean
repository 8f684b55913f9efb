import SeatMachine.Proofs.Machine.Course
import SeatMachine.Proofs.Session.Operation
/-!
# One ending

How an attempt is driven has no part in how it ends. Every session with the same challenge, program and
policy stands on one and the same course; what a step means for the attempt depends only on the place
it starts from, and a session leaves the first place where a step ends the attempt only by a rewind.
So there is at most one ending to report.

`OnCourse` is the invariant, `invariant_onCourse` keeps it over every call, and `endings_agree` compares
any two sessions.
-/
namespace SeatMachine

/-- How the step that leads to the `k`-th place of its course ends an attempt. No step leads to the
start. -/
def Challenge.endingAt (c : Challenge) (program : Program) (policy : Policy) : Nat → Option Ending
  | 0 => none
  | k + 1 => c.endingAfter program policy ((Snapshot.start c.initialArray program).after program k)

/-- There is one first place at which an attempt ends. -/
theorem Challenge.endingAt_unique {c : Challenge} {program : Program} {policy : Policy} {j k : Nat}
    {e₁ e₂ : Ending} (h₁ : c.endingAt program policy j = some e₁)
    (h₂ : c.endingAt program policy k = some e₂)
    (before₁ : ∀ i, i < j → c.endingAt program policy i = none)
    (before₂ : ∀ i, i < k → c.endingAt program policy i = none) : e₁ = e₂ := by
  have hjk : j = k := by
    rcases Nat.lt_trichotomy j k with h | h | h
    · rw [before₂ j h] at h₁; cases h₁
    · exact h
    · rw [before₁ k h] at h₂; cases h₂
  subst hjk
  rw [h₁] at h₂
  exact Option.some.inj h₂

namespace Session

/-- The session stands at the `k`-th place of the course of its attempt. The step that led there ended
the attempt just as the session says, and no step before it did. -/
structure OnCourse (c : Challenge) (program : Program) (policy : Policy) (s : Session) (k : Nat) :
    Prop where
  challenge_eq : s.challenge = c
  program_eq : s.program = program
  policy_eq : s.policy = policy
  machine_eq : s.machine.program = program
  isAt : s.machine.IsAt (.start c.initialArray program) k
  ending_eq : s.ending? = c.endingAt program policy k
  before : ∀ j, j < k → c.endingAt program policy j = none

variable {c : Challenge} {program : Program} {policy : Policy} {s s' : Session} {k : Nat}

/-- What is neither the attempt, the machine nor the ending has no part in it. -/
theorem OnCourse.congr (h : OnCourse c program policy s k) (hc : s'.challenge = s.challenge)
    (hp : s'.program = s.program) (hpol : s'.policy = s.policy) (hm : s'.machine = s.machine)
    (he : s'.ending? = s.ending?) : OnCourse c program policy s' k where
  challenge_eq := hc.trans h.challenge_eq
  program_eq := hp.trans h.program_eq
  policy_eq := hpol.trans h.policy_eq
  machine_eq := by rw [hm]; exact h.machine_eq
  isAt := by rw [hm]; exact h.isAt
  ending_eq := he.trans h.ending_eq
  before := h.before

/-- If an attempt is not over, no step up to the place where it stands has ended it. -/
theorem OnCourse.goesOn (h : OnCourse c program policy s k) (he : s.ending? = none) {j : Nat} (hj : j ≤ k) :
    c.endingAt program policy j = none := by
  rcases Nat.lt_or_eq_of_le hj with hj | rfl
  · exact h.before j hj
  · exact h.ending_eq.symm.trans he

theorem OnCourse.advance (h : OnCourse c program policy s k) (he : s.ending? = none) :
    OnCourse c program policy s.advance.2 (k + 1) := by
  obtain ⟨hm, hc, hp, hpol⟩ := s.advance_frame
  refine ⟨hc.trans h.challenge_eq, hp.trans h.program_eq, hpol.trans h.policy_eq, ?_, ?_, ?_, ?_⟩
  · rw [hm, Machine.program_step]; exact h.machine_eq
  · rw [hm]; exact h.isAt.step
  · rw [ending?_advance (h.machine_eq.trans h.program_eq.symm), h.challenge_eq, h.program_eq, h.policy_eq,
      h.isAt.snapshot, h.machine_eq]
    rfl
  · exact fun j hj => h.goesOn he (Nat.le_of_lt_succ hj)

theorem OnCourse.step (h : OnCourse c program policy s k) : ∃ j, OnCourse c program policy s.step.2 j := by
  obtain ⟨-, e⟩ | ⟨ending, -, e⟩ | ⟨-, he, e⟩ := s.step_cases
  · exact ⟨k, by rw [e]; exact h⟩
  · exact ⟨k, by rw [e]; exact h⟩
  · have h' : OnCourse c program policy { s with stepped := true } k := h.congr rfl rfl rfl rfl rfl
    exact ⟨k + 1, by rw [e]; exact h'.advance he⟩

theorem OnCourse.tick (h : OnCourse c program policy s k) : ∃ j, OnCourse c program policy s.tick.2 j := by
  obtain ⟨-, e⟩ | ⟨hr, e⟩ := s.tick_cases
  · exact ⟨k, by rw [e]; exact h⟩
  · have he : s.ending? = none := by simp only [ending?, hr]
    exact ⟨k + 1, by rw [e]; exact h.advance he⟩

theorem OnCourse.start (h : OnCourse c program policy s k) : OnCourse c program policy s.start k := by
  unfold Session.start
  cases he : s.ending? with
  | some ending => exact h
  | none => exact h.congr rfl rfl rfl rfl he.symm

theorem OnCourse.pause (h : OnCourse c program policy s k) : OnCourse c program policy s.pause k := by
  refine h.congr rfl rfl rfl rfl ?_
  unfold Session.pause
  by_cases hr : s.status = .running
  · simp only [ending?, hr, if_true]
  · simp only [ending?, hr, if_false]

theorem OnCourse.rewind (h : OnCourse c program policy s k) :
    ∃ j, OnCourse c program policy s.rewind.2 j := by
  obtain ⟨-, e⟩ | ⟨m, hm, e⟩ := s.rewind_cases
  · exact ⟨k, by rw [e]; exact h⟩
  · obtain ⟨j, rfl, hj⟩ := h.isAt.rewind hm
    refine ⟨j, ?_⟩
    rw [e]
    refine ⟨h.challenge_eq, h.program_eq, h.policy_eq, ?_, hj, ?_, fun i hi => h.before i (by omega)⟩
    · exact (Machine.rewind?_eq_some hm).2.2.trans h.machine_eq
    · rw [h.before j (by omega)]
      by_cases hr : s.status = .ready
      · simp only [ending?, hr, if_true]
      · simp only [ending?, hr, if_false]

theorem OnCourse.reset (h : OnCourse c program policy s k) : OnCourse c program policy s.reset 0 := by
  refine ⟨h.challenge_eq, h.program_eq, h.policy_eq, h.program_eq, ?_, rfl, fun j hj => by omega⟩
  rw [← h.challenge_eq, ← h.program_eq]
  exact Machine.isAt_start _ _ _

theorem invariant_onCourse (c : Challenge) (program : Program) (policy : Policy) :
    Invariant fun s => ∃ k, OnCourse c program policy s k where
  step := fun _ ⟨_, h⟩ => h.step
  start := fun _ ⟨k, h⟩ => ⟨k, h.start⟩
  tick := fun _ ⟨_, h⟩ => h.tick
  pause := fun _ ⟨k, h⟩ => ⟨k, h.pause⟩
  rewind := fun _ ⟨_, h⟩ => h.rewind
  reset := fun _ ⟨_, h⟩ => ⟨0, h.reset⟩
  cancel := fun _ _ ⟨k, h⟩ => ⟨k, h.congr rfl rfl rfl rfl rfl⟩

theorem onCourse_build (c : Challenge) (program : Program) (settings : List Setting) :
    OnCourse c program (build c program settings).policy (build c program settings) 0 := by
  obtain ⟨policy, sink, limit, e⟩ := build_eq c program settings
  rw [e]
  exact ⟨rfl, rfl, rfl, rfl, Machine.isAt_start _ _ _, rfl, fun j hj => by omega⟩

/-- All sessions with one challenge, program and policy report one ending, if they report any. -/
theorem eq_of_mem_endings {settings₁ settings₂ : List Setting} {ops₁ ops₂ : List Op} {e₁ e₂ : Ending}
    (hpolicy : (build c program settings₁).policy = (build c program settings₂).policy)
    (h₁ : e₁ ∈ (build c program settings₁).endings ops₁)
    (h₂ : e₂ ∈ (build c program settings₂).endings ops₂) : e₁ = e₂ := by
  have hP := invariant_onCourse c program (build c program settings₂).policy
  have hb₁ := onCourse_build c program settings₁
  rw [hpolicy] at hb₁
  obtain ⟨s₁, ⟨j, hj⟩, he₁⟩ := hP.exists_of_mem_endings ⟨0, hb₁⟩ h₁
  obtain ⟨s₂, ⟨k, hk⟩, he₂⟩ := hP.exists_of_mem_endings ⟨0, onCourse_build c program settings₂⟩ h₂
  rw [hj.ending_eq] at he₁
  rw [hk.ending_eq] at he₂
  exact Challenge.endingAt_unique he₁ he₂ hj.before hk.before

/-- **The verdict does not depend on how an attempt was driven.** Take two sessions with the same
challenge, program and policy, with any limits on their histories and any sinks, and make any calls on
each. If one reports a verdict, the other reports no other verdict and no fault; if one reports a fault,
the other reports no other fault and no verdict. -/
theorem endings_agree (c : Challenge) (program : Program) (settings₁ settings₂ : List Setting)
    (hpolicy : (build c program settings₁).policy = (build c program settings₂).policy)
    (ops₁ ops₂ : List Op) :
    let endings₁ := (build c program settings₁).endings ops₁
    let endings₂ := (build c program settings₂).endings ops₂
    (∀ verdict, .finished verdict ∈ endings₁ →
      (∀ other, .finished other ∈ endings₂ → other = verdict) ∧ ∀ fault, .faulted fault ∉ endings₂) ∧
    (∀ fault, .faulted fault ∈ endings₁ →
      (∀ other, .faulted other ∈ endings₂ → other = fault) ∧ ∀ verdict, .finished verdict ∉ endings₂) := by
  intro endings₁ endings₂
  have hone : ∀ e₁ ∈ endings₁, ∀ e₂ ∈ endings₂, e₁ = e₂ := fun e₁ h₁ e₂ h₂ =>
    eq_of_mem_endings hpolicy h₁ h₂
  refine ⟨fun verdict hv => ⟨fun other ho => ?_, fun fault hf => ?_⟩,
    fun fault hf => ⟨fun other ho => ?_, fun verdict hv => ?_⟩⟩
  · cases hone _ hv _ ho; rfl
  · cases hone _ hv _ hf
  · cases hone _ hf _ ho; rfl
  · cases hone _ hf _ hv

/-- Single steps against a paused run that is taken back and ticked to the end; and single steps into a
fault against a run into it. -/
theorem endings_agree_step_run :
    let c : Challenge := { initialArray := [7, 0], targetArray := [7, 7] }
    let copy : Program := ⟨[.op (.pick .moco), .op (.moveRight .moco), .op (.put .moco)]⟩
    let put : Program := ⟨[.op (.put .moco)]⟩
    let settings : List Setting := [.historyLimit 1, .sink ⟨fun _ => .error "closed"⟩]
    let verdict : Verdict := ⟨.solved true, 3⟩
    let fault : Fault := .handEmpty 0 0
    let mixed : List Op := [.run 5 (some 12) 9, .rewind, .start, .tick, .tick]
    (.finished verdict ∈ (build c copy []).endings [.step, .step, .step] ∧
      .finished verdict ∈ (build c copy settings).endings mixed ∧
      ∀ other, .finished other ∈ (build c copy settings).endings mixed → other = verdict) ∧
    (.faulted fault ∈ (build c put []).endings [.step, .step] ∧
      .faulted fault ∈ (build c put settings).endings [.run 0 none 1] ∧
      ∀ other, .faulted other ∈ (build c put settings).endings [.run 0 none 1] → other = fault) := by
  intro c copy put settings verdict fault mixed
  have hv : .finished verdict ∈ (build c copy []).endings [.step, .step, .step] := by decide
  have hf : .faulted fault ∈ (build c put []).endings [.step, .step] := by decide
  exact ⟨⟨hv, by decide, ((endings_agree c copy [] settings rfl _ mixed).1 verdict hv).1⟩,
    ⟨hf, by decide, ((endings_agree c put [] settings rfl _ _).2 fault hf).1⟩⟩

end Session

end SeatMachine
