import SeatMachine.Proofs.Session.TimedRun
/-!
# Reporting

A completion is reported by the call that solves the challenge, and by no other: `reportsExactly_apply` says
what one call reports. An attempt that is finished stays so until a step is taken back or it is reset
(`status_calls_of_finished`), which is why a second report needs one of these.

What a completion says of how the attempt was driven is read off two marks, and `drive_calls` says what they
stand for in terms of the calls since the last reset. A session without its sink is `bare`, and does the
same: `apply_bare`.

The main theorem is `completions_of_calls`.
-/
namespace SeatMachine

/-- What a way of driving tells of an attempt: it was stepped, it was run, or both. -/
def Drive.Tells (stepped ran : Prop) : Drive → Prop
  | .step => stepped ∧ ¬ ran
  | .run => ¬ stepped ∧ ran
  | .mixed => stepped ∧ ran

theorem Drive.of?_eq_none {stepped ran : Bool} (h : Drive.of? stepped ran = none) :
    stepped = false ∧ ran = false := by
  cases stepped <;> cases ran <;> cases h
  exact ⟨rfl, rfl⟩

theorem Drive.tells_of? {stepped ran : Bool} {drive : Drive} (h : Drive.of? stepped ran = some drive) :
    drive.Tells (stepped = true) (ran = true) := by
  cases stepped <;> cases ran <;> cases h <;> simp [Tells]

namespace Session

variable {s s' : Session}

/-! ## What a call reports -/

/-- The attempt was not finished, and now it is, with a success. -/
structure Solved (s s' : Session) (verdict : Verdict) : Prop where
  unfinished : s.status ≠ .finished
  finished : s'.status = .finished
  verdict_eq : s'.verdict = some verdict
  success : verdict.success = true

/-- From the one session to the other, a completion was reported just if the attempt got finished. -/
def ReportsExactly (s s' : Session) : Prop :=
  s'.completions = s.completions ++
    (if s.status ≠ .finished ∧ s'.status = .finished then s'.reported else [])

theorem reportsExactly_of_eq (hc : s'.completions = s.completions)
    (hs : s'.status = .finished → s.status = .finished) : ReportsExactly s s' := by
  have hno : ¬ (s.status ≠ .finished ∧ s'.status = .finished) := fun h => h.1 (hs h.2)
  simp only [ReportsExactly, hno, if_false, List.append_nil, hc]

/-- Driving an attempt reports if it finishes the attempt. -/
theorem reportsExactly_advance (hp : s.machine.program = s.program) (hs : s.status ≠ .finished) :
    ReportsExactly s s.advance.2 := by
  obtain ⟨-, e⟩ | ⟨-, e⟩ | ⟨fault, -, e⟩ := s.advance_cases hp
  · refine reportsExactly_of_eq (by rw [e]) fun h => ?_
    rw [e] at h
    by_cases hr : s.status = .running
    · simp [hr] at h
    · simp [hr] at h
  · rw [e, finish_eq_reported]
    simp only [ReportsExactly, hs, ne_eq, not_false_eq_true, and_self, if_true]
    rfl
  · refine reportsExactly_of_eq (by rw [e]) fun h => ?_
    rw [e] at h
    cases h

theorem reportsExactly_run (h : Coherent s) (interval : Nat) (cancelAfter : Option Nat) (alarms : Nat) :
    ReportsExactly s (s.run interval cancelAfter alarms).2 := by
  cases he : s.ending? with
  | some ending =>
    rw [run_of_ending?_eq_some he]
    exact reportsExactly_of_eq rfl id
  | none =>
    have hactive := h.active_start he
    have hs := (h.open_of_ending?_eq_none he).1
    obtain ⟨hlt, -, e⟩ | ⟨k, -, -, hlt, e⟩ | ⟨k, ending, -, -, hneeded, -, e⟩ :=
      run_cases h he interval cancelAfter alarms
    · refine reportsExactly_of_eq (by rw [e, afterTicks_start h he hlt]) fun hf => ?_
      rw [e, afterTicks_start h he hlt] at hf
      cases hf
    · refine reportsExactly_of_eq (by rw [e, pause_afterTicks h he hlt]) fun hf => ?_
      rw [e, pause_afterTicks h he hlt] at hf
      cases hf
    · -- Only the last tick reports, and the attempt was not finished before the run either.
      have hlt := lt_ticksNeeded_of_eq hneeded
      have hgoing := (hactive.afterTicks hlt).1
      have hlast := reportsExactly_advance hgoing.machine_program (by rw [hgoing.status_eq]; decide)
      have hcompletions : (s.start.afterTicks k).completions = s.completions := by
        rw [afterTicks_start h he hlt]
      rw [e, afterTicks_succ, hgoing.tick_eq]
      simp only [ReportsExactly, hgoing.status_eq, hcompletions, hs, ne_eq, not_false_eq_true, true_and,
        reduceCtorEq] at hlast ⊢
      exact hlast

/-- A call reports just if it finishes the attempt. -/
theorem reportsExactly_apply (h : Coherent s) (op : Op) : ReportsExactly s (s.apply op).2 := by
  cases op with
  | step =>
    simp only [apply]
    obtain ⟨-, e⟩ | ⟨ending, -, e⟩ | ⟨-, he, e⟩ := s.step_cases
    · rw [e]; exact reportsExactly_of_eq rfl id
    · rw [e]; exact reportsExactly_of_eq rfl id
    · rw [e]
      exact reportsExactly_advance (s := { s with stepped := true }) h.machine_program
        (h.open_of_ending?_eq_none he).1
  | tick =>
    simp only [apply]
    obtain ⟨-, e⟩ | ⟨hr, e⟩ := s.tick_cases
    · rw [e]; exact reportsExactly_of_eq rfl id
    · rw [e]; exact reportsExactly_advance h.machine_program (by rw [hr]; decide)
  | run interval cancelAfter alarms => exact reportsExactly_run h interval cancelAfter alarms
  | start =>
    refine reportsExactly_of_eq (completions_start s) fun hf => ?_
    cases he : s.ending? with
    | some ending => simp only [apply, start_of_ending?_eq_some he] at hf; exact hf
    | none => simp [apply, start_of_ending?_eq_none he] at hf
  | pause =>
    refine reportsExactly_of_eq rfl fun hf => ?_
    by_cases hr : s.status = .running
    · simp [apply, pause, hr] at hf
    · simpa [apply, pause, hr] using hf
  | rewind =>
    simp only [apply]
    obtain ⟨-, e⟩ | ⟨m, -, e⟩ := s.rewind_cases
    · rw [e]; exact reportsExactly_of_eq rfl id
    · refine reportsExactly_of_eq (by rw [e]) fun hf => ?_
      rw [e] at hf
      by_cases hr : s.status = .ready
      · simp [hr] at hf
      · simp [hr] at hf
  | reset => exact reportsExactly_of_eq rfl fun hf => by cases hf
  | judge => exact reportsExactly_of_eq rfl id
  | cancel handle => exact reportsExactly_of_eq rfl id

/-! ## Between two reports -/

/-- An attempt that is finished stays so until a step is taken back or it is reset. -/
theorem status_apply_of_finished (h : Coherent s) (hs : s.status = .finished) {op : Op}
    (hreset : op ≠ .reset) (hrewind : (s.apply op).1 ≠ .rewind true) :
    (s.apply op).2.status = .finished := by
  obtain ⟨verdict, hv⟩ := Option.isSome_iff_exists.1 (h.finished_iff.1 hs)
  have he : s.ending? = some (.finished verdict) := by simp [ending?, hs, hv]
  cases op with
  | step => simp [apply, step, hs, he]
  | start => simp [apply, start_of_ending?_eq_some he, hs]
  | tick => simp [apply, tick, hs]
  | pause => simp [apply, pause, hs]
  | judge => exact hs
  | cancel handle => exact hs
  | run interval cancelAfter alarms => simp [apply, run_of_ending?_eq_some he, hs]
  | reset => exact absurd rfl hreset
  | rewind =>
    simp only [apply] at hrewind ⊢
    obtain ⟨-, e⟩ | ⟨m, -, e⟩ := s.rewind_cases
    · rw [e]; exact hs
    · rw [e] at hrewind
      exact absurd rfl hrewind

theorem status_calls_of_finished : ∀ (ops : List Op) {s : Session}, Coherent s → s.status = .finished →
    .reset ∉ ops → .rewind true ∉ s.replies ops → (s.calls ops).status = .finished
  | [], _, _, hs, _, _ => hs
  | op :: ops, s, h, hs, hreset, hrewind => by
    simp only [replies, List.mem_cons, not_or] at hreset hrewind
    exact status_calls_of_finished ops (invariant_coherent.apply h op)
      (status_apply_of_finished h hs (Ne.symm hreset.1) (Ne.symm hrewind.1)) hreset.2 hrewind.2

/-! ## How an attempt was driven -/

/-- A single step that is done: no run is active, and the attempt is not over. -/
@[mk_iff]
inductive AcceptsStep (s : Session) : Op → Prop
  | step : s.status ≠ .running → s.ending? = none → AcceptsStep s .step

/-- A run that is started: the attempt is not over. -/
@[mk_iff]
inductive AcceptsRun (s : Session) : Op → Prop
  | start : s.ending? = none → AcceptsRun s .start
  | run (interval : Nat) (cancelAfter : Option Nat) (alarms : Nat) :
      s.ending? = none → AcceptsRun s (.run interval cancelAfter alarms)

/-- Since the last reset among some calls, there was one of the kind `P`. -/
def SinceReset (P : Session → Op → Prop) (s : Session) (ops : List Op) : Prop :=
  ∃ before op after, ops = before ++ op :: after ∧ .reset ∉ after ∧ P (s.calls before) op

theorem calls_append (s : Session) (ops ops' : List Op) :
    s.calls (ops ++ ops') = (s.calls ops).calls ops' := by
  induction ops generalizing s with
  | nil => rfl
  | cons op ops ih => exact ih _

theorem sinceReset_concat (P : Session → Op → Prop) (s : Session) (ops : List Op) (op : Op) :
    SinceReset P s (ops ++ [op]) ↔ P (s.calls ops) op ∨ (op ≠ .reset ∧ SinceReset P s ops) := by
  constructor
  · rintro ⟨before, o, after, e, hafter, hP⟩
    rcases List.eq_nil_or_concat after with rfl | ⟨after, last, rfl⟩
    · obtain ⟨rfl, hlast⟩ := List.append_inj' e rfl
      cases hlast
      exact Or.inl hP
    · rw [List.concat_eq_append, ← List.cons_append, ← List.append_assoc] at e
      obtain ⟨rfl, hlast⟩ := List.append_inj' e rfl
      cases hlast
      simp only [List.concat_eq_append, List.mem_append, List.mem_singleton, not_or] at hafter
      exact Or.inr ⟨Ne.symm hafter.2, before, o, after, rfl, hafter.1, hP⟩
  · rintro (hP | ⟨hop, before, o, after, rfl, hafter, hP⟩)
    · exact ⟨ops, op, [], rfl, by simp, hP⟩
    · refine ⟨before, o, after ++ [op], by simp, ?_, hP⟩
      simp [hafter, Ne.symm hop]

theorem stepped_advance (s : Session) : s.advance.2.stepped = s.stepped := by
  obtain ⟨_, _, _, _, e⟩ := s.advance_eq
  rw [e]

theorem ran_advance (s : Session) : s.advance.2.ran = s.ran := by
  obtain ⟨_, _, _, _, e⟩ := s.advance_eq
  rw [e]

/-- A run marks the attempt as run and nothing else. -/
theorem marks_run (h : Coherent s) (he : s.ending? = none) (interval : Nat) (cancelAfter : Option Nat)
    (alarms : Nat) :
    (s.run interval cancelAfter alarms).2.stepped = s.stepped ∧
      (s.run interval cancelAfter alarms).2.ran = true := by
  obtain ⟨hlt, -, e⟩ | ⟨k, -, -, hlt, e⟩ | ⟨k, ending, -, -, hneeded, -, e⟩ :=
    run_cases h he interval cancelAfter alarms
  · rw [e, afterTicks_start h he hlt]
    exact ⟨rfl, rfl⟩
  · rw [e, pause_afterTicks h he hlt]
    exact ⟨rfl, rfl⟩
  · have hlt := lt_ticksNeeded_of_eq hneeded
    have hgoing := ((h.active_start he).afterTicks hlt).1
    rw [e, afterTicks_succ, hgoing.tick_eq, stepped_advance, ran_advance, afterTicks_start h he hlt]
    exact ⟨rfl, rfl⟩

/-- Which calls mark an attempt as stepped, and which as run; a reset takes both marks away. -/
theorem marks_apply (h : Coherent s) (op : Op) :
    ((s.apply op).2.stepped = true ↔ AcceptsStep s op ∨ (op ≠ .reset ∧ s.stepped = true)) ∧
      ((s.apply op).2.ran = true ↔ AcceptsRun s op ∨ (op ≠ .reset ∧ s.ran = true)) := by
  cases op with
  | step =>
    simp only [apply, acceptsStep_iff, acceptsRun_iff]
    obtain ⟨hr, e⟩ | ⟨ending, he, e⟩ | ⟨hr, he, e⟩ := s.step_cases
    · simp [e, hr]
    · simp [e, he]
    · simp [e, hr, he, stepped_advance, ran_advance]
  | start =>
    simp only [apply, acceptsStep_iff, acceptsRun_iff]
    cases he : s.ending? with
    | some ending => simp [start_of_ending?_eq_some he]
    | none => simp [start_of_ending?_eq_none he]
  | tick =>
    simp only [apply, acceptsStep_iff, acceptsRun_iff]
    obtain ⟨-, e⟩ | ⟨-, e⟩ := s.tick_cases
    · simp [e]
    · simp [e, stepped_advance, ran_advance]
  | rewind =>
    simp only [apply, acceptsStep_iff, acceptsRun_iff]
    obtain ⟨-, e⟩ | ⟨m, -, e⟩ := s.rewind_cases
    · simp [e]
    · simp [e]
  | run interval cancelAfter alarms =>
    simp only [apply, acceptsStep_iff, acceptsRun_iff]
    cases he : s.ending? with
    | some ending => simp [run_of_ending?_eq_some he]
    | none => simp [marks_run h he]
  | reset => simp [apply, reset, acceptsStep_iff, acceptsRun_iff]
  | pause => simp [apply, pause, acceptsStep_iff, acceptsRun_iff]
  | judge => simp [apply, acceptsStep_iff, acceptsRun_iff]
  | cancel handle => simp [apply, cancel, acceptsStep_iff, acceptsRun_iff]

/-- The two marks tell whether, since the last reset, a single step was done and whether a run was
started. -/
theorem drive_calls (h : Coherent s) (hd : s.drive? = none) (ops : List Op) :
    ((s.calls ops).stepped = true ↔ SinceReset AcceptsStep s ops) ∧
      ((s.calls ops).ran = true ↔ SinceReset AcceptsRun s ops) := by
  induction ops using List.reverseRecOn with
  | nil =>
    simp [calls, Drive.of?_eq_none hd, SinceReset]
  | append_singleton ops op ih =>
    have hcall := marks_apply (invariant_coherent.calls ops h) op
    rw [calls_append, sinceReset_concat, sinceReset_concat, ← ih.1, ← ih.2]
    exact hcall

/-! ## Without a sink -/

/-- The session without its sink and without what it reported. -/
def bare (s : Session) : Session :=
  { s with sink := none, completions := [] }

theorem finish_bare (s : Session) : s.bare.finish = (s.finish.1, s.finish.2.bare) := by
  rw [finish_eq_reported, finish_eq_reported]
  rfl

theorem advance_bare (s : Session) : s.bare.advance = (s.advance.1, s.advance.2.bare) := by
  have hfinish : ({ s with
      machine := s.machine.step.2, sink := none, completions := [] } : Session).finish = _ :=
    finish_bare { s with machine := s.machine.step.2 }
  show ({ s with sink := none, completions := [] } : Session).advance = _
  unfold advance
  dsimp only
  rw [hfinish]
  split
  · rfl
  · split
    · rfl
    · split <;> rfl

theorem start_bare (s : Session) : s.bare.start = s.start.bare := by
  cases he : s.ending? with
  | some ending =>
    have he' : s.bare.ending? = some ending := he
    rw [start_of_ending?_eq_some he, start_of_ending?_eq_some he']
  | none =>
    have he' : s.bare.ending? = none := he
    rw [start_of_ending?_eq_none he, start_of_ending?_eq_none he']
    rfl

theorem tick_bare (s : Session) : s.bare.tick = (s.tick.1, s.tick.2.bare) := by
  have hstatus : s.bare.status = s.status := rfl
  unfold tick
  rw [advance_bare, hstatus]
  split <;> rfl

theorem await_bare (interval : Nat) (cancelAfter : Option Nat) : ∀ (alarms time : Nat) (s : Session),
    await interval cancelAfter alarms time s.bare =
      ((await interval cancelAfter alarms time s).1, (await interval cancelAfter alarms time s).2.bare)
  | 0, _, _ => rfl
  | alarms + 1, time, s => by
    have hswitches : s.bare.switches = s.switches := rfl
    rw [await, await, tick_bare, hswitches]
    split
    · rfl
    · rcases s.tick with ⟨_ | _ | _ | _, s'⟩
      · rfl
      · exact await_bare interval cancelAfter alarms _ s'
      · rfl
      · rfl

/-- Neither the sink nor what it answers has a part in what a call replies or in how it leaves the
attempt. -/
theorem apply_bare (s : Session) (op : Op) : s.bare.apply op = ((s.apply op).1, (s.apply op).2.bare) := by
  have hending : s.bare.ending? = s.ending? := rfl
  cases op with
  | step =>
    have hadvance := advance_bare { s with stepped := true }
    have hstatus : s.bare.status = s.status := rfl
    simp only [apply, step, hending, hstatus]
    split
    · rfl
    · cases s.ending? with
      | some ending => rfl
      | none => exact congrArg (fun r : StepReply × Session => (Reply.step r.1, r.2)) hadvance
  | start => simp only [apply, start_bare]
  | tick => simp only [apply, tick_bare]
  | run interval cancelAfter alarms =>
    have hstart : s.start.bare.ending? = s.start.ending? := rfl
    simp only [apply, run, start_bare, hstart]
    cases s.start.ending? with
    | some ending => rfl
    | none => simp only [await_bare]
  | rewind =>
    have hmachine : s.bare.machine = s.machine := rfl
    simp only [apply, rewind, hmachine]
    cases s.machine.rewind? with
    | none => rfl
    | some m => rfl
  | pause => rfl
  | reset => rfl
  | judge => rfl
  | cancel handle => rfl

theorem calls_bare (ops : List Op) :
    ∀ s : Session, s.bare.replies ops = s.replies ops ∧ s.bare.calls ops = (s.calls ops).bare := by
  induction ops with
  | nil => exact fun s => ⟨rfl, rfl⟩
  | cons op ops ih =>
    intro s
    obtain ⟨hreplies, hcalls⟩ := ih (s.apply op).2
    simp only [replies, calls, apply_bare, hreplies, hcalls, and_self]

/-- What calls leave alone: any part of a session that does not depend on the machine, on how the attempt
stands and was driven, on the switches and on the completions. -/
theorem invariant_of_frame {α : Type} (part : Session → α)
    (hpart : ∀ (s : Session) machine status lastFault verdict switches stepped ran completions,
      part { s with machine, status, lastFault, verdict, switches, stepped, ran, completions } = part s)
    (a : α) : Invariant fun s => part s = a where
  step := fun s h => by
    obtain ⟨-, e⟩ | ⟨ending, -, e⟩ | ⟨-, -, e⟩ := s.step_cases
    · rw [e]; exact h
    · rw [e]; exact h
    · obtain ⟨_, _, _, _, ea⟩ := advance_eq { s with stepped := true }
      rw [e, ea]; exact (hpart s _ _ _ _ _ _ _ _).trans h
  start := fun s h => by
    cases he : s.ending? with
    | some ending => rw [start_of_ending?_eq_some he]; exact h
    | none => rw [start_of_ending?_eq_none he, hpart]; exact h
  tick := fun s h => by
    obtain ⟨-, e⟩ | ⟨-, e⟩ := s.tick_cases
    · rw [e]; exact h
    · obtain ⟨_, _, _, _, ea⟩ := s.advance_eq
      rw [e, ea, hpart]; exact h
  pause := fun s h => by rw [pause, hpart]; exact h
  rewind := fun s h => by
    obtain ⟨-, e⟩ | ⟨m, -, e⟩ := s.rewind_cases
    · rw [e]; exact h
    · rw [e, hpart]; exact h
  reset := fun s h => by rw [reset, hpart]; exact h
  cancel := fun s _ h => by rw [cancel, hpart]; exact h

theorem invariant_sink (sink : Option Sink) : Invariant fun s => s.sink = sink :=
  invariant_of_frame Session.sink (fun _ _ _ _ _ _ _ _ _ => rfl) sink

/-! ## The account of completions -/

/-- A call that solves the challenge reports it. -/
theorem Solved.completions_eq {verdict : Verdict} (hsolved : Solved s s' verdict)
    (h : ReportsExactly s s') : s'.completions = s.completions ++ s'.reported := by
  rw [h, if_pos ⟨hsolved.unfinished, hsolved.finished⟩]

/-- What an attempt that has succeeded reports. -/
theorem reported_of_success (h : Coherent s) (hs : s.status = .finished) (hsink : s.sink.isSome = true)
    (hsuccess : s.judge.success = true) : ∃ drive, s.drive? = some drive ∧
      s.reported = [⟨s.challenge.id, s.judge.stepCount, s.program.instructionCount, drive⟩] := by
  obtain ⟨drive, hdrive⟩ := Option.isSome_iff_exists.1 (h.driven (by rw [hs]; decide))
  exact ⟨drive, hdrive, by simp [reported, hsink, hsuccess, hdrive]⟩

/-- No other call reports. -/
theorem completions_of_not_solved (h : ReportsExactly s s') (h' : Coherent s')
    (hnot : ∀ verdict, ¬ Solved s s' verdict) : s'.completions = s.completions := by
  rw [h]
  split
  case isFalse => exact List.append_nil _
  case isTrue hfinished =>
    -- The attempt got finished, so it failed its challenge.
    obtain ⟨verdict, hv⟩ := Option.isSome_iff_exists.1 (h'.finished_iff.1 hfinished.2)
    obtain rfl := h'.verdict_eq verdict hv
    have hfail : s'.judge.success = false := by
      cases hsuccess : s'.judge.success with
      | false => rfl
      | true => exact absurd ⟨hfinished.1, hfinished.2, hv, hsuccess⟩ (hnot s'.judge)
    simp [reported, hfail]

theorem exists_solved (h : ReportsExactly s s') (h' : Coherent s')
    (hne : s'.completions ≠ s.completions) : ∃ verdict, Solved s s' verdict := by
  by_contra hnone
  exact hne (completions_of_not_solved h h' (not_exists.1 hnone))

/-- **A completion is reported when a call solves the challenge.** Make any calls on a session with a sink.
A call that gets the attempt finished with a success reports one completion, and no other call reports any.
It carries the id of the challenge, the number of steps of the verdict and the number of instructions of the
program; and it tells whether, since the last reset, only single steps were accepted, only runs, or both.
Between two reports a step was taken back or the attempt was reset. Another sink, whatever it answers, or
none makes no difference to the replies or to the session they leave, but for the sink and what it was
given. -/
theorem completions_of_calls (c : Challenge) (program : Program) (settings : List Setting)
    (hsink : (build c program settings).sink.isSome = true) (ops : List Op) (op : Op) :
    let s₀ := build c program settings
    let s := s₀.calls ops
    let s' := (s.apply op).2
    s₀.completions = [] ∧
    (∀ verdict, Solved s s' verdict → ∃ drive : Drive,
      s'.completions =
        s.completions ++ [⟨c.id, verdict.stepCount, program.instructionCount, drive⟩] ∧
      drive.Tells (SinceReset AcceptsStep s₀ (ops ++ [op])) (SinceReset AcceptsRun s₀ (ops ++ [op]))) ∧
    ((∀ verdict, ¬ Solved s s' verdict) → s'.completions = s.completions) ∧
    (s'.completions ≠ s.completions → ∀ later op',
      ((s'.calls later).apply op').2.completions ≠ (s'.calls later).completions →
      .reset ∈ later ∨ .rewind true ∈ s'.replies later) ∧
    ∀ sink, ({ s₀ with sink } : Session).replies ops = s₀.replies ops ∧
      (({ s₀ with sink } : Session).calls ops).bare = s.bare := by
  intro s₀ s s'
  have h₀ : Coherent s₀ := coherent_build c program settings
  have hnew : s₀.status = .ready ∧ s₀.completions = [] := by
    obtain ⟨policy, sink, limit, e⟩ := build_eq c program settings
    simp only [s₀, e, new, and_self]
  have h : Coherent s := coherent_calls c program settings ops
  have h' : Coherent s' := invariant_coherent.apply h op
  have hreport : ReportsExactly s s' := reportsExactly_apply h op
  refine ⟨?_, ?_, completions_of_not_solved hreport h', ?_, ?_⟩
  · exact hnew.2
  · intro verdict hsolved
    obtain rfl := h'.verdict_eq verdict hsolved.verdict_eq
    have hsame : s'.sink = s₀.sink := by
      have hkept := invariant_sink s₀.sink
      exact hkept.apply (hkept.calls ops rfl) op
    obtain ⟨k, hk⟩ := (invariant_onCourse c program s₀.policy).apply
      ((invariant_onCourse c program s₀.policy).calls ops ⟨0, onCourse_build c program settings⟩) op
    obtain ⟨drive, hdrive, hreported⟩ :=
      reported_of_success h' hsolved.finished (hsame ▸ hsink) hsolved.success
    have hmarks := drive_calls h₀ (h₀.ready hnew.1).2 (ops ++ [op])
    rw [calls_append] at hmarks
    refine ⟨drive, ?_, ?_⟩
    · rw [hsolved.completions_eq hreport, hreported, hk.challenge_eq, hk.program_eq]
    · rw [← hmarks.1, ← hmarks.2]
      exact Drive.tells_of? hdrive
  · intro hfirst later op' hsecond
    have hlater : Coherent (s'.calls later) := invariant_coherent.calls later h'
    obtain ⟨_, hsolved⟩ := exists_solved hreport h' hfirst
    obtain ⟨_, hsolved'⟩ :=
      exists_solved (reportsExactly_apply hlater op') (invariant_coherent.apply hlater op') hsecond
    -- A finished attempt stays finished without a reset or a rewind, and what is finished is not solved again.
    by_contra hneither
    rw [not_or] at hneither
    exact hsolved'.unfinished (status_calls_of_finished later h' hsolved.finished hneither.1 hneither.2)
  · intro sink
    have hmine := calls_bare ops s₀
    have hother := calls_bare ops { s₀ with sink }
    exact ⟨hother.1.symm.trans hmine.1, hother.2.symm.trans hmine.2⟩

/-- Three steps copy a seat; the last is taken back and done again by a run. Both ends are reported, and the
sink's answers change nothing. -/
theorem completions_of_calls_twice :
    let c : Challenge := { id := "copy", initialArray := [7, 0], targetArray := [7, 7] }
    let copy : Program := ⟨[.op (.pick .moco), .op (.moveRight .moco), .op (.put .moco)]⟩
    let s₀ := build c copy [.sink ⟨fun _ => .error "closed"⟩]
    let ops : List Op := [.step, .step, .step, .rewind]
    let s := s₀.calls ops
    let s' := (s.apply (.run 5 none 9)).2
    let verdict : Verdict := ⟨.solved true, 3⟩
    (Solved s s' verdict ∧ ∃ drive : Drive,
      s'.completions = s.completions ++ [⟨c.id, verdict.stepCount, copy.instructionCount, drive⟩] ∧
      drive.Tells (SinceReset AcceptsStep s₀ (ops ++ [.run 5 none 9]))
        (SinceReset AcceptsRun s₀ (ops ++ [.run 5 none 9]))) ∧
    s'.completions = [⟨"copy", 3, 3, .step⟩, ⟨"copy", 3, 3, .mixed⟩] ∧
    (.reset ∈ [Op.rewind] ∨ .rewind true ∈ ((s₀.calls [.step, .step]).apply .step).2.replies [.rewind]) ∧
    ({ s₀ with sink := none } : Session).replies ops = s₀.replies ops := by
  intro c copy s₀ ops s s' verdict
  have hsolved : Solved s s' verdict := ⟨by decide, by decide, by decide, by decide⟩
  obtain ⟨-, -, -, hbetween, -⟩ := completions_of_calls c copy [.sink ⟨fun _ => .error "closed"⟩] rfl
    [.step, .step] .step
  obtain ⟨-, honce, -, -, hother⟩ := completions_of_calls c copy [.sink ⟨fun _ => .error "closed"⟩] rfl
    ops (.run 5 none 9)
  refine ⟨⟨hsolved, ?_⟩, ?_, ?_, ?_⟩
  · -- Nothing is to be evaluated here.
    with_reducible exact honce verdict hsolved
  · decide
  · exact hbetween (by decide) [.rewind] (.run 5 none 9) (by decide)
  · exact (hother none).1

end Session

end SeatMachine
