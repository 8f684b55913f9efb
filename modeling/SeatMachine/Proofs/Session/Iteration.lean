import SeatMachine.Proofs.Session.TimedRun
/-!
# Iterating the machine

An attempt can be told without a session: step the machine until it halts. It halts when the last instruction of
its program is done, when the program is left by a step of its own, or when a step fails. `iterate_cases` is all
that iterating with a limit can come to; `iterate_eq_left_iff` says that only the empty program is left by a step
of its own.

An immediate run of a new session under the policy for the boundary does the same. It replies as the machine halts and
leaves its snapshot (`runImmediately_eq_iterate`), and it reports one completion or none
(`completions_runImmediately`).
-/
namespace SeatMachine

/-- How a machine that is stepped by itself halts. -/
inductive Halt where
  /-- The last instruction of the program is done. -/
  | done
  /-- The program was left. -/
  | left
  /-- A step failed. -/
  | failed (fault : Fault)
deriving DecidableEq, Repr

/-! ## The machine by itself -/

namespace Machine

/-- How the machine halts with its next step, if it does. -/
def halt? (m : Machine) : Option Halt :=
  match m.step with
  | (.advanced, m') => if m'.AtEnd m.program then some .done else none
  | (.completed, _) => some .left
  | (.failed fault, _) => some (.failed fault)

/-- Steps a machine until it halts, at most `limit` times. -/
def iterate : (limit : Nat) → Machine → Option Halt × Machine
  | 0, m => (none, m)
  | limit + 1, m =>
    match m.halt? with
    | some halt => (some halt, m.step.2)
    | none => iterate limit m.step.2

variable {m : Machine} {k limit : Nat}

theorem halt?_eq (m : Machine) :
    m.halt? =
      match m.step.1 with
      | .advanced => if m.step.2.AtEnd m.program then some .done else none
      | .completed => some .left
      | .failed fault => some (.failed fault) := by
  unfold halt?
  rcases m.step with ⟨_ | _ | _, _⟩ <;> rfl

/-- A machine that does not halt has advanced, and something is left to run. -/
theorem not_atEnd_of_halt? (h : m.halt? = none) : ¬ m.step.2.AtEnd m.program := by
  rw [halt?_eq] at h
  cases ho : m.step.1 with
  | advanced =>
    rw [ho] at h
    intro hend
    dsimp only at h
    rw [if_pos hend] at h
    cases h
  | completed => rw [ho] at h; cases h
  | failed fault => rw [ho] at h; cases h

theorem isCompleted_of_halt? (h : m.halt? = some .left) : m.step.1.isCompleted = true := by
  rw [halt?_eq] at h
  cases ho : m.step.1 with
  | advanced =>
    rw [ho] at h
    dsimp only at h
    split at h <;> cases h
  | completed => rfl
  | failed fault => rw [ho] at h; cases h

theorem iterate_add : ∀ {k : Nat} (rest : Nat), (∀ j, j < k → (m.after j).halt? = none) →
    iterate (k + rest) m = iterate rest (m.after k)
  | 0, rest, _ => by rw [Nat.zero_add]; rfl
  | k + 1, rest, h => by
    rw [Nat.add_assoc, Nat.add_comm 1, iterate_add (rest + 1) fun j hj => h j (Nat.lt_succ_of_lt hj), iterate,
      h k (Nat.lt_succ_self k)]
    rfl

/-- All that iterating can come to: no step within the limit halts, or the first one that does is the last. -/
theorem iterate_cases (m : Machine) (limit : Nat) :
    ((∀ j, j < limit → (m.after j).halt? = none) ∧ iterate limit m = (none, m.after limit)) ∨
    ∃ k halt, k < limit ∧ (∀ j, j < k → (m.after j).halt? = none) ∧ (m.after k).halt? = some halt ∧
      iterate limit m = (some halt, m.after (k + 1)) := by
  by_cases hall : ∀ j, j < limit → (m.after j).halt? = none
  · exact Or.inl ⟨hall, iterate_add 0 hall⟩
  · -- The first step that halts.
    have hsome : ∃ k, k < limit ∧ (m.after k).halt? ≠ none := by
      simpa only [not_forall, exists_prop] using hall
    classical
    obtain ⟨hk, hhalt⟩ := Nat.find_spec hsome
    have hbefore : ∀ j, j < Nat.find hsome → (m.after j).halt? = none := fun j hj =>
      not_not.1 fun hne => Nat.find_min hsome hj ⟨by omega, hne⟩
    generalize Nat.find hsome = k at hk hhalt hbefore
    obtain ⟨halt, hhalt⟩ := Option.ne_none_iff_exists'.1 hhalt
    obtain ⟨rest, rfl⟩ : ∃ rest, limit = k + (rest + 1) := ⟨limit - k - 1, by omega⟩
    refine Or.inr ⟨k, halt, hk, hbefore, hhalt, ?_⟩
    rw [iterate_add _ hbefore, iterate, hhalt]
    rfl

end Machine

section Start

variable {array : List Int64} {program : Program} {k : Nat}

/-- As long as no step has halted, something is left to run; of the empty program there is only the end. -/
theorem atEnd_of_not_halted (h : ∀ j, j < k → ((Machine.start array program none).after j).halt? = none)
    (hend : ((Machine.start array program none).after k).AtEnd program) : k = 0 ∧ program.block = [] := by
  cases k with
  | zero =>
    refine ⟨rfl, ?_⟩
    rcases hend with hend | hend
    · cases hend
    · have hlen : 0 = program.length := (Frame.mk.inj (List.cons.inj hend).1).2
      exact List.eq_nil_of_length_eq_zero hlen.symm
  | succ k =>
    have hnot := Machine.not_atEnd_of_halt? (h k (Nat.lt_succ_self k))
    rw [Machine.program_after] at hnot
    exact absurd hend hnot

theorem stack_ne_nil_of_not_halted
    (h : ∀ j, j < k → ((Machine.start array program none).after j).halt? = none) :
    ((Machine.start array program none).after k).stack ≠ [] := by
  intro hs
  obtain ⟨rfl, -⟩ := atEnd_of_not_halted h (Or.inl hs)
  cases hs

theorem nested_machine_after (array : List Int64) (program : Program) (k : Nat) :
    Nested program ((Machine.start array program none).after k).stack := by
  rw [Machine.toSnapshot_after]
  exact nested_after array program k

/-- Only the empty program is left by a step of its own, and that is its first. -/
theorem iterate_eq_left_iff (array : List Int64) (program : Program) (limit : Nat) :
    (Machine.iterate limit (.start array program none)).1 = some .left ↔ program.block = [] ∧ limit ≠ 0 := by
  constructor
  · intro hleft
    obtain ⟨-, e⟩ | ⟨k, halt, hk, hbefore, hhalt, e⟩ := (Machine.start array program none).iterate_cases limit
    · rw [e] at hleft; cases hleft
    · rw [e] at hleft
      cases hleft
      have hcompleted := Machine.isCompleted_of_halt? hhalt
      rw [Machine.fst_step, Machine.program_after] at hcompleted
      have hend := (Snapshot.atEnd_iff_isCompleted (nested_machine_after array program k)).2 hcompleted
      exact ⟨(atEnd_of_not_halted hbefore hend).2, by omega⟩
  · rintro ⟨hempty, hlimit⟩
    obtain ⟨limit, rfl⟩ := Nat.exists_eq_succ_of_ne_zero hlimit
    have hleft : (Machine.start array program none).halt? = some .left := by
      simp [Machine.halt?, Machine.step, Machine.start, Snapshot.start, Snapshot.step, Frame.current?, hempty,
        Snapshot.leave]
    rw [Machine.iterate, hleft]

end Start

/-! ## What halting means for an attempt -/

namespace Halt

/-- The attempt is over: the program is completed, or a step ran off the row. -/
def IsOver : Halt → Prop
  | .done | .left => True
  | .failed fault => fault.kind = .pointerOutOfRange

instance : DecidablePred IsOver
  | .done => isTrue trivial
  | .left => isTrue trivial
  | .failed fault => inferInstanceAs (Decidable (fault.kind = .pointerOutOfRange))

/-- How the attempt ends: it is judged if it is over, and has failed otherwise. -/
def ending (c : Challenge) (s : Snapshot) : Halt → Ending
  | .done | .left => .finished (c.judge s)
  | .failed fault => if fault.kind = .pointerOutOfRange then .finished (c.judge s) else .faulted fault

theorem ending_of_isOver {halt : Halt} (h : halt.IsOver) (c : Challenge) (s : Snapshot) :
    halt.ending c s = .finished (c.judge s) := by
  cases halt with
  | done => rfl
  | left => rfl
  | failed fault => exact if_pos h

theorem ending_of_not_isOver {halt : Halt} (h : ¬ halt.IsOver) (c : Challenge) (s : Snapshot) :
    ∃ fault, halt = .failed fault ∧ fault.kind ≠ .pointerOutOfRange ∧ halt.ending c s = .faulted fault := by
  cases halt with
  | done => exact absurd trivial h
  | left => exact absurd trivial h
  | failed fault => exact ⟨fault, rfl, h, if_neg h⟩

end Halt

theorem Policy.boundary_eq (fault : Fault) :
    Policy.boundary fault = if fault.kind = .pointerOutOfRange then .soft else .hard := by
  unfold Policy.boundary
  cases fault.kind <;> rfl

theorem Challenge.endingAfter_eq_halt? (c : Challenge) {m : Machine} (hn : Nested m.program m.stack)
    (hs : m.stack ≠ []) :
    c.endingAfter m.program .boundary m.toSnapshot = m.halt?.map (Halt.ending c m.step.2.toSnapshot) := by
  have hstep : (m.toSnapshot.step m.program).1 = m.step.1 := rfl
  have hend_iff : (m.toSnapshot.step m.program).2.AtEnd m.program ↔ m.step.2.AtEnd m.program := Iff.rfl
  cases ho : m.step.1 with
  | advanced =>
    rw [endingAfter_of_isSuccess hn (by rw [hstep, ho]; rfl), Machine.halt?_eq, ho]
    by_cases hend : m.step.2.AtEnd m.program
    · rw [if_pos (hend_iff.2 hend)]
      simp only [if_pos hend]
      rfl
    · rw [if_neg (mt hend_iff.1 hend)]
      simp only [if_neg hend]
      rfl
  | completed =>
    rw [endingAfter_eq, hstep, Machine.halt?_eq, ho]
    rfl
  | failed fault =>
    have hnot : fault ≠ .programCompleted := by
      rintro rfl
      exact hs (Snapshot.stack_of_failed_programCompleted ho)
    rw [endingAfter_eq, hstep, Machine.halt?_eq, ho]
    simp only [hnot, false_or, Policy.boundary_eq, Option.map_some, Halt.ending]
    by_cases hk : fault.kind = .pointerOutOfRange
    · simp [hk]
    · simp [hk]

/-- As long as no step before it has halted, the step that leads to a place of the course ends the attempt just if
the machine halts with it. -/
theorem Challenge.endingAt_eq_halt? (c : Challenge) {program : Program} {k : Nat}
    (h : ∀ j, j < k → ((Machine.start c.initialArray program none).after j).halt? = none) :
    c.endingAt program .boundary (k + 1) =
      ((Machine.start c.initialArray program none).after k).halt?.map
        (Halt.ending c ((Machine.start c.initialArray program none).after (k + 1)).toSnapshot) := by
  have hn := nested_machine_after c.initialArray program k
  have hs := stack_ne_nil_of_not_halted h
  have hafter := c.endingAfter_eq_halt? (by rw [Machine.program_after]; exact hn) hs
  rw [Machine.program_after, Machine.toSnapshot_after] at hafter
  exact hafter

theorem Challenge.endingAt_eq_none (c : Challenge) {program : Program} {k : Nat}
    (h : ∀ j, j < k → ((Machine.start c.initialArray program none).after j).halt? = none) :
    ∀ j, j ≤ k → c.endingAt program .boundary j = none := by
  intro j hj
  cases j with
  | zero => rfl
  | succ j =>
    rw [c.endingAt_eq_halt? fun i hi => h i (by omega), h j hj]
    rfl

/-! ## Immediate runs -/

/-- The reply of a run that comes to an end, or to none. -/
def RunReply.ofEnding : Option Ending → RunReply
  | none => .paused
  | some ending => .ended ending

namespace Session

variable {s : Session}

/-- An immediate run of a new session comes to what iterating the machine comes to. -/
theorem runImmediately_eq_iterate (c : Challenge) (program : Program) (settings : List Setting)
    (hpolicy : (build c program settings).policy = .boundary) (limit : Nat) :
    let s₀ := build c program settings
    let result := Machine.iterate limit (.start c.initialArray program none)
    (s₀.runImmediately limit).1 = .ofEnding (result.1.map (Halt.ending c result.2.toSnapshot)) ∧
      (s₀.runImmediately limit).2.machine.toSnapshot = result.2.toSnapshot := by
  intro s₀ result
  have h : Coherent s₀ := coherent_build c program settings
  have hc := onCourse_build c program settings
  have he : s₀.ending? = none := hc.ending_eq
  have hcases := runImmediately_build c program settings limit
  simp only [hpolicy] at hcases
  obtain ⟨hnone, e⟩ | ⟨k, halt, hk, hbefore, hhalt, e⟩ :=
    (Machine.start c.initialArray program none).iterate_cases limit
  · have hopen := c.endingAt_eq_none hnone
    obtain ⟨hpaused, -⟩ | ⟨k, ending, hk, -, -, hend, -⟩ := hcases
    · have hlt := (runImmediately_eq_paused_iff h he limit).1 hpaused
      refine ⟨?_, ?_⟩
      · rw [hpaused]
        simp only [result, e]
        rfl
      · rw [runImmediately_of_lt h he hlt, pause_afterTicks h he hlt]
        simp only [result, e, Machine.toSnapshot_after]
        rw [hc.isAt.snapshot, hc.machine_eq]
        rfl
    · cases (hopen (k + 1) hk).symm.trans hend
  · have hopen := c.endingAt_eq_none hbefore
    have hlast := c.endingAt_eq_halt? hbefore
    rw [hhalt] at hlast
    obtain ⟨-, hnone⟩ | ⟨k', ending, hk', hreply, hbefore', hend, hsnap⟩ := hcases
    · cases (hnone (k + 1) hk).symm.trans hlast
    · -- Both numbers are those of the first step that ends the attempt.
      obtain rfl : k' = k := by
        rcases Nat.lt_trichotomy k' k with hlt | heq | hlt
        · cases (hopen (k' + 1) hlt).symm.trans hend
        · exact heq
        · cases (hbefore' (k + 1) hlt).symm.trans hlast
      obtain rfl : ending = _ := Option.some.inj (hend.symm.trans hlast)
      refine ⟨?_, ?_⟩
      · rw [hreply]
        simp only [result, e]
        rfl
      · rw [hsnap]
        simp only [result, e, Machine.toSnapshot_after]
        rfl

/-- What an immediate run reports: a completion if it ends the attempt with a success, and nothing otherwise. -/
theorem completions_runImmediately (h : Coherent s) (he : s.ending? = none) (hsink : s.sink.isSome = true)
    (limit : Nat) :
    (s.runImmediately limit).2.completions = s.completions ++
      match (s.runImmediately limit).1 with
      | .ended (.finished verdict) =>
        if verdict.success then
          [⟨s.challenge.id, verdict.stepCount, s.program.instructionCount, (Drive.of? s.stepped true).getD .step⟩]
        else []
      | _ => [] := by
  rcases lt_or_ge (limit : ℕ∞) s.start.ticksNeeded with hlt | hge
  · rw [runImmediately_of_lt h he hlt, pause_afterTicks h he hlt]
    exact (List.append_nil _).symm
  · obtain ⟨k, hk, hneeded⟩ := (h.active_start he).exists_ticksNeeded_eq hge
    obtain ⟨ending, htick, hending⟩ := (h.active_start he).last_tick hneeded
    have hlt := lt_ticksNeeded_of_eq hneeded
    have hactive := ((h.active_start he).afterTicks hlt).1
    rw [runImmediately_of_eq h he hneeded hk hending]
    rw [hactive.tick_eq, Prod.mk.injEq, Option.some.injEq] at htick
    obtain ⟨hreply, hnext⟩ := htick
    rw [← hnext]
    -- Only the last tick can report, and before it the session has its settings and its marks still.
    have heq := afterTicks_start h he hlt
    generalize s.start.afterTicks k = going at heq hactive hreply
    obtain ⟨-, e⟩ | ⟨-, e⟩ | ⟨fault, -, e⟩ := going.advance_cases hactive.machine_program
    · rw [e] at hreply; cases hreply
    · rw [e, finish_eq_reported] at hreply ⊢
      cases hreply
      subst heq
      simp only [reported, hsink, Bool.true_and]
      rfl
    · rw [e] at hreply ⊢
      cases hreply
      subst heq
      exact (List.append_nil _).symm

end Session

end SeatMachine
