import SeatMachine.Proofs.Machine.Hindrance
import SeatMachine.Proofs.Machine.Nesting
import SeatMachine.Proofs.Session.Ending
/-!
# Early finishes

A session ends an attempt as soon as the place reached in the program is its end, without waiting for the
machine to leave the program. It looks at the outermost block only; that no body can be open then is due
to nesting. `AtEnd` is the state in which only leaving the program remains: `atEnd_iff_line` says that the
session recognizes it, and `atEnd_iff_isCompleted` that the machine would complete there, with nothing
changed.

`drives_finished_iff` puts this together for every session and every step or tick.
-/
namespace SeatMachine

/-! ## The end of a program -/

namespace Snapshot

/-- Nothing is left to run: the program was left, or is at its end with no body open. -/
def AtEnd (program : Program) (s : Snapshot) : Prop :=
  s.stack = [] ∨ s.stack = [⟨program.block, program.length⟩]

instance (program : Program) (s : Snapshot) : Decidable (s.AtEnd program) :=
  inferInstanceAs (Decidable (_ ∨ _))

variable {program : Program} {s : Snapshot}

/-- While a body is open, the program stands at the conditional around it, so before its end. -/
theorem top_lt_of_nested : ∀ {frame outer : Frame} {rest : List Frame},
    Nested program (frame :: outer :: rest) →
      ∃ top, (frame :: outer :: rest).getLast? = some top ∧ top.pc < program.length
  | _, outer, [], h => by
    obtain ⟨-, ⟨c, target, hc⟩, hblock, -⟩ := h
    have hlt := Frame.pc_lt hc
    rw [hblock] at hlt
    exact ⟨outer, rfl, hlt⟩
  | _, outer, next :: rest, h => by
    obtain ⟨top, htop, hlt⟩ := top_lt_of_nested h.2.2
    exact ⟨top, by rw [List.getLast?_cons_cons]; exact htop, hlt⟩

theorem atEnd_iff_line (hn : Nested program s.stack) :
    s.AtEnd program ↔ program.length ≤ s.line program := by
  unfold AtEnd line
  cases hs : s.stack with
  | nil => simp
  | cons frame outer =>
    rw [hs] at hn
    cases outer with
    | nil =>
      obtain ⟨hblock, hpc⟩ := hn
      rw [hblock] at hpc
      obtain ⟨block, pc⟩ := frame
      simp only at hblock hpc
      subst hblock
      simp only [reduceCtorEq, false_or, List.cons.injEq, Frame.mk.injEq, true_and, and_true,
        List.getLast?_singleton]
      unfold Program.length
      omega
    | cons next rest =>
      obtain ⟨top, htop, hlt⟩ := top_lt_of_nested hn
      rw [htop]
      simp only [reduceCtorEq, List.cons.injEq, and_false, or_false, false_iff, Nat.not_le]
      exact hlt

theorem eq_of_isCompleted (h : (s.step program).1.isCompleted = true) :
    (s.step program).2.store = s.store ∧ (s.step program).2.stepCount = s.stepCount := by
  have ht := Transition.of_step program s
  generalize hs' : (s.step program).2 = s' at ht
  generalize ho : (s.step program).1 = outcome at h ht
  cases ht with
  | idle | complete | stuck | lost | undecided => exact ⟨rfl, rfl⟩
  | leave | operate | jump | enter | pass => cases h

theorem atEnd_iff_isCompleted (hn : Nested program s.stack) :
    s.AtEnd program ↔ (s.step program).1.isCompleted = true := by
  constructor
  · rintro (hs | hs)
    · simp only [step, hs]; rfl
    · have hc : (⟨program.block, program.length⟩ : Frame).current? = none := by
        simp [Frame.current?, Program.length]
      simp only [step, hs, hc]; rfl
  · intro h
    have ht := Transition.of_step program s
    generalize (s.step program).2 = s' at ht
    cases ho : (s.step program).1 with
    | advanced => rw [ho] at h; cases h
    | failed fault =>
      rw [ho, Outcome.isCompleted_failed, decide_eq_true_eq] at h
      subst h
      exact Or.inl (stack_of_failed_programCompleted ho)
    | completed =>
      rw [ho] at ht
      cases ht with
      | @complete st frame n hc =>
        -- The one frame left runs the program, and its place is neither before nor beyond the end.
        have hnested : frame.block = program.block ∧ frame.pc ≤ frame.block.length := hn
        obtain ⟨block, pc⟩ := frame
        obtain ⟨hblock, hpc⟩ := hnested
        simp only at hblock hpc
        subst hblock
        simp only [Frame.current?, List.getElem?_eq_none_iff] at hc
        have hpc' : pc = program.length := Nat.le_antisymm hpc hc
        subst hpc'
        exact Or.inr rfl

end Snapshot

/-! ## What a step means for an attempt -/

namespace Challenge

variable {c : Challenge} {program : Program} {policy : Policy} {s : Snapshot}

theorem judge_congr {s s' : Snapshot} (hst : s'.store = s.store) (hn : s'.stepCount = s.stepCount) :
    c.judge s' = c.judge s := by
  have ha : s'.array = s.array := congrArg Store.array hst
  simp only [judge, ha, hn]

theorem endingAfter_of_isSuccess (hn : Nested program s.stack)
    (hs : (s.step program).1.isSuccess = true) :
    c.endingAfter program policy s =
      if (s.step program).2.AtEnd program then some (.finished (c.judge (s.step program).2)) else none := by
  have ht := Transition.of_step program s
  have hn' := nested_transition ht hn
  rw [endingAfter_eq]
  generalize (s.step program).2 = s' at ht hn'
  cases ho : (s.step program).1 with
  | failed fault => rw [ho] at hs; cases hs
  | advanced => simp only [Snapshot.atEnd_iff_line hn']
  | completed =>
    rw [ho] at ht
    cases ht with
    | complete hc => rfl

theorem not_isCompleted_of_endingAfter (h : c.endingAfter program policy s = none) :
    (s.step program).1.isCompleted = false ∧ (s.step program).1.isSuccess = true := by
  rw [endingAfter_eq] at h
  cases ho : (s.step program).1 with
  | advanced => exact ⟨rfl, rfl⟩
  | completed => rw [ho] at h; cases h
  | failed fault =>
    rw [ho] at h
    simp only at h
    split at h <;> cases h

/-- Where no step has ended an attempt, something is left to run, but for the start of an empty program. -/
theorem empty_of_atEnd {k : Nat} (hopen : c.endingAt program policy k = none)
    (ha : ((Snapshot.start c.initialArray program).after program k).AtEnd program) : program.block = [] ∧ k = 0 := by
  cases k with
  | zero =>
    rcases ha with ha | ha
    · cases ha
    · have hlen : 0 = program.length := (Frame.mk.inj (List.cons.inj ha).1).2
      exact ⟨List.eq_nil_of_length_eq_zero hlen.symm, rfl⟩
  | succ k =>
    -- The step that led here ended nothing, so the place it led to is not the end.
    obtain ⟨-, hsuccess⟩ := not_isCompleted_of_endingAfter hopen
    have hend : ((((Snapshot.start c.initialArray program).after program k).step program).2).AtEnd program := ha
    rw [endingAt, endingAfter_of_isSuccess (nested_after _ _ k) hsuccess, if_pos hend] at hopen
    cases hopen

end Challenge

/-! ## Sessions -/

/-- The reply of a step that led to an ending, or to none. -/
def StepReply.ofEnding : Option Ending → StepReply
  | none => .advanced
  | some ending => .ended ending

namespace Session

/-- The calls that do a step of the machine: a single step that is not refused, and a tick of an active
run. Each has its reply and leads to a session. -/
inductive Drives (s : Session) : StepReply → Session → Prop
  | step : s.status ≠ .running → s.ending? = none → Drives s s.step.1 s.step.2
  | tick {reply : StepReply} : s.tick.1 = some reply → Drives s reply s.tick.2

variable {s s' : Session} {reply : StepReply}

theorem Drives.eq_advance (h : Drives s reply s') :
    s.ending? = none ∧ ∃ stepped, { s with stepped }.advance = (reply, s') := by
  cases h with
  | step hr he =>
    obtain ⟨hr', -⟩ | ⟨ending, he', -⟩ | ⟨-, -, e⟩ := s.step_cases
    · exact absurd hr' hr
    · rw [he] at he'; cases he'
    · exact ⟨he, true, by rw [e]⟩
  | tick ht =>
    obtain ⟨-, e⟩ | ⟨hr, e⟩ := s.tick_cases
    · rw [e] at ht; cases ht
    · rw [e] at ht ⊢
      cases ht
      exact ⟨by simp only [ending?, hr], s.stepped, rfl⟩

/-- Driving replies with the ending that the step means, if it means one. -/
theorem fst_advance (hp : s.machine.program = s.program) :
    s.advance.1 = .ofEnding (s.challenge.endingAfter s.program s.policy s.machine.toSnapshot) := by
  obtain ⟨e, ea⟩ | ⟨e, ea⟩ | ⟨fault, e, ea⟩ := s.advance_cases hp
  · rw [e, ea]; rfl
  · obtain ⟨completions, ef⟩ := finish_eq { s with machine := s.machine.step.2 }
    rw [e, ea, ef]; rfl
  · rw [e, ea]; rfl

variable {c : Challenge} {program : Program} {policy : Policy} {k : Nat}

theorem OnCourse.nested (h : OnCourse c program policy s k) : Nested program s.machine.stack := by
  rw [h.isAt.snapshot, h.machine_eq]
  exact nested_after c.initialArray program k

theorem OnCourse.drives (h : OnCourse c program policy s k) (hd : Drives s reply s') :
    s.ending? = none ∧ s'.machine = s.machine.step.2 ∧ OnCourse c program policy s' (k + 1) ∧
      reply = .ofEnding (c.endingAfter program policy s.machine.toSnapshot) := by
  obtain ⟨he, stepped, ha⟩ := hd.eq_advance
  have h' : OnCourse c program policy { s with stepped } k := h.congr rfl rfl rfl rfl rfl
  have hm := ({ s with stepped } : Session).advance_frame.1
  have hnext := h'.advance he
  have hreply := fst_advance (h'.machine_eq.trans h'.program_eq.symm)
  rw [ha] at hm hnext hreply
  rw [h'.challenge_eq, h'.program_eq, h'.policy_eq] at hreply
  exact ⟨he, hm, hnext, hreply⟩

theorem OnCourse.reply_of_isSuccess (h : OnCourse c program policy s k) (hd : Drives s reply s')
    (hs : s.machine.step.1.isSuccess = true) :
    reply = .ofEnding
      (if s'.machine.AtEnd program then some (.finished (c.judge s'.machine.toSnapshot)) else none) := by
  obtain ⟨-, hm, -, hreply⟩ := h.drives hd
  rw [Machine.fst_step, h.machine_eq] at hs
  rw [hreply, Challenge.endingAfter_of_isSuccess h.nested hs, hm, Machine.toSnapshot_step, h.machine_eq]

/-- An attempt that is not over has something left to run; only the empty program has nothing from the
start. -/
theorem OnCourse.start_of_atEnd (h : OnCourse c program policy s k) (he : s.ending? = none)
    (ha : s.machine.AtEnd program) :
    program.block = [] ∧ s.machine.toSnapshot = .start c.initialArray program := by
  have hsnap := h.isAt.snapshot
  rw [h.machine_eq] at hsnap
  rw [hsnap] at ha
  obtain ⟨hempty, rfl⟩ := Challenge.empty_of_atEnd (h.ending_eq.symm.trans he) ha
  exact ⟨hempty, hsnap⟩

theorem OnCourse.not_isCompleted (h : OnCourse c program policy s k) (he : s.ending? = none) :
    ∀ j, j < k →
      (((Snapshot.start c.initialArray program).after program j).step program).1.isCompleted = false := by
  intro j hj
  have hnone : c.endingAt program policy (j + 1) = none := h.goesOn he hj
  exact (Challenge.not_isCompleted_of_endingAfter hnone).1

/-- The machine by itself, from the start of an attempt, first completes with its step number `n`. -/
def CompletesAt (c : Challenge) (program : Program) (n : Nat) : Prop :=
  let machine := Machine.start c.initialArray program none
  (machine.after n).step.1.isCompleted = true ∧
    ∀ j, j < n → (machine.after j).step.1.isCompleted = false

/-- If a step that is done leads to the end, the machine by itself completes there, and its verdict is that
of the completed machine. -/
theorem OnCourse.completesAt (h : OnCourse c program policy s k) (he : s.ending? = none)
    (ha : s.machine.step.2.AtEnd program) :
    ∃ n, CompletesAt c program n ∧
      c.judge s.machine.step.2.toSnapshot =
        c.judge ((Machine.start c.initialArray program none).after n).step.2.toSnapshot := by
  have hsnap : s.machine.toSnapshot = (Snapshot.start c.initialArray program).after program k := by
    rw [h.isAt.snapshot, h.machine_eq]
  have hbefore := h.not_isCompleted he
  have hprogram : (Machine.start c.initialArray program none).program = program := rfl
  simp only [CompletesAt, Machine.fst_step, Machine.toSnapshot_step, Machine.toSnapshot_after,
    Machine.program_after, h.machine_eq, hprogram, hsnap] at ha ⊢
  by_cases hc : (((Snapshot.start c.initialArray program).after program k).step program).1.isCompleted = true
  · exact ⟨k, ⟨hc, hbefore⟩, rfl⟩
  · -- The program was not left yet; the next step leaves it and changes nothing else.
    have hn := nested_after c.initialArray program (k + 1)
    have hlast := (Snapshot.atEnd_iff_isCompleted hn).1 ha
    obtain ⟨hst, hcount⟩ := Snapshot.eq_of_isCompleted hlast
    refine ⟨k + 1, ⟨hlast, fun j hj => ?_⟩, (Challenge.judge_congr hst hcount).symm⟩
    by_cases hjk : j = k
    · subst hjk
      exact Bool.eq_false_iff.2 hc
    · exact hbefore j (by omega)

/-- **An attempt finishes at the end of its program, no earlier and no later.** Take any session, with any
policy, and any step or tick on it whose step of the machine is done. It finishes the attempt just if
nothing is left to run, that is, just if one more step of the machine would complete and change neither
the row, the cursors, the hand nor the count. The verdict it then reports is that on the machine which
completed by itself. And the step was not one too many: before it something was left to run, or nothing
had been run of an empty program. -/
theorem drives_finished_iff (c : Challenge) (program : Program) (settings : List Setting)
    (ops : List Op) (reply : StepReply) (s' : Session) :
    let s := (build c program settings).calls ops
    let m := s'.machine
    Drives s reply s' → s.machine.step.1.isSuccess = true →
      m.toSnapshot = s.machine.step.2.toSnapshot ∧
      ((∃ verdict, reply = .ended (.finished verdict)) ↔ m.AtEnd program) ∧
      (m.AtEnd program ↔ m.step.1.isCompleted = true ∧ m.step.2.store = m.store ∧
        m.step.2.stepCount = m.stepCount) ∧
      (∀ verdict, reply = .ended (.finished verdict) →
        verdict = c.judge m.step.2.toSnapshot ∧
        ∃ n, CompletesAt c program n ∧
          verdict = c.judge ((Machine.start c.initialArray program none).after n).step.2.toSnapshot) ∧
      (s.machine.AtEnd program →
        program.block = [] ∧ s.machine.toSnapshot = .start c.initialArray program) := by
  intro s m hd hs
  obtain ⟨k, hk⟩ := (invariant_onCourse c program (build c program settings).policy).calls ops
    ⟨0, onCourse_build c program settings⟩
  obtain ⟨he, hm, hnext, -⟩ := hk.drives hd
  have hreply := hk.reply_of_isSuccess hd hs
  have hcompletes : m.AtEnd program ↔ m.step.1.isCompleted = true := by
    rw [Machine.fst_step, hnext.machine_eq]
    exact Snapshot.atEnd_iff_isCompleted hnext.nested
  have hsame : m.step.1.isCompleted = true →
      m.step.2.store = m.store ∧ m.step.2.stepCount = m.stepCount := fun h =>
    Snapshot.eq_of_isCompleted h
  have hfinished : ∀ verdict, reply = .ended (.finished verdict) →
      m.AtEnd program ∧ verdict = c.judge m.toSnapshot := by
    intro verdict hv
    rw [hv] at hreply
    split at hreply
    · rename_i hend
      cases hreply
      exact ⟨hend, rfl⟩
    · cases hreply
  refine ⟨by rw [← hm], ⟨?_, ?_⟩, ⟨?_, ?_⟩, ?_, hk.start_of_atEnd he⟩
  · rintro ⟨verdict, hv⟩
    exact (hfinished verdict hv).1
  · intro hend
    rw [if_pos hend] at hreply
    exact ⟨_, hreply⟩
  · intro hend
    exact ⟨hcompletes.1 hend, hsame (hcompletes.1 hend)⟩
  · rintro ⟨hcompleted, -⟩
    exact hcompletes.2 hcompleted
  · intro verdict hv
    obtain ⟨hend, hverdict⟩ := hfinished verdict hv
    obtain ⟨hst, hcount⟩ := hsame (hcompletes.1 hend)
    -- The verdict comes a step before the machine completes, but that step changes nothing that is judged.
    obtain ⟨n, hn, hjudge⟩ := hk.completesAt he (hm ▸ hend)
    rw [← hm] at hjudge
    exact ⟨hverdict.trans (Challenge.judge_congr hst hcount).symm, n, hn, hverdict.trans hjudge⟩

/-- A conditional in the last place: its body is entered, its last instruction done and the body left, and
only the last of these finishes the attempt. -/
theorem drives_finished_iff_last_conditional :
    let c : Challenge := { initialArray := [3], targetArray := [4] }
    let program : Program := ⟨[.op (.pick .moco), .branch .equal .moco [.op (.increment .moco)]]⟩
    let policy : Policy := fun _ => .hard
    let settings : List Setting := [.policy policy, .historyLimit 1]
    let before := (build c program settings).calls [.step, .step]
    let last := (build c program settings).calls [.step, .step, .start, .tick]
    (before.step.1 = .advanced ∧ before.machine.step.1.isSuccess = true ∧
      ¬ before.step.2.machine.AtEnd program) ∧
    (last.tick.1 = some (.ended (.finished ⟨.solved true, 4⟩)) ∧ last.machine.step.1.isSuccess = true ∧
      last.tick.2.machine.AtEnd program ∧ ∃ n, CompletesAt c program n) := by
  intro c program policy settings before last
  have hbefore := drives_finished_iff c program settings [.step, .step] before.step.1 before.step.2
    (.step (by decide) (by decide)) (by decide)
  have hlast := drives_finished_iff c program settings [.step, .step, .start, .tick]
    (.ended (.finished ⟨.solved true, 4⟩)) last.tick.2 (.tick (by decide)) (by decide)
  obtain ⟨-, n, hn, -⟩ := hlast.2.2.2.1 _ rfl
  refine ⟨⟨by decide, by decide, fun hend => ?_⟩, by decide, by decide, hlast.2.1.1 ⟨_, rfl⟩, n, hn⟩
  obtain ⟨verdict, hv⟩ := hbefore.2.1.2 hend
  have hadvanced : before.step.1 = .advanced := by decide
  rw [hadvanced] at hv
  cases hv

end Session

end SeatMachine
