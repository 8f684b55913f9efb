import SeatMachine.Proofs.Session.Ending
/-!
# Coherence

A session says several things twice: where the attempt stands is its status, but also whether it has a
verdict, a fault, a machine off its start, or a way it was driven. `Coherent` says how these agree.

A step of the machine is only ever done on an attempt that is `Underway`, and whatever comes of it is
coherent: `Underway.advance`. All other calls keep coherence by themselves. A completion is reported in
the middle of such a step, so the way it says the attempt was driven is never the default:
`reportsOnto_apply`.
-/
namespace SeatMachine

/-! ## Ways of driving -/

theorem Drive.of?_true_left (ran : Bool) : (Drive.of? true ran).isSome := by
  cases ran <;> rfl

theorem Drive.of?_true_right (stepped : Bool) :
    Drive.of? stepped true = some .run ∨ Drive.of? stepped true = some .mixed := by
  cases stepped
  · exact Or.inl rfl
  · exact Or.inr rfl

namespace Session

/-- The fields of a session agree with its status. -/
structure Coherent (s : Session) : Prop where
  machine_program : s.machine.program = s.program
  finished_iff : s.status = .finished ↔ s.verdict.isSome
  verdict_eq : ∀ verdict, s.verdict = some verdict → verdict = s.judge
  faulted_iff : s.status = .faulted ↔ s.lastFault.isSome
  ready : s.status = .ready →
    s.machine = .start s.challenge.initialArray s.program s.historyLimit ∧ s.drive? = none
  driven : s.status ≠ .ready → s.drive?.isSome
  running : s.status = .running → s.drive? = some .run ∨ s.drive? = some .mixed

/-- The attempt is being driven and is not over: the only state in which a step of the machine is done. -/
structure Underway (s : Session) : Prop where
  machine_program : s.machine.program = s.program
  verdict_eq : s.verdict = none
  lastFault_eq : s.lastFault = none
  driven : s.drive?.isSome
  running : s.status = .running → s.drive? = some .run ∨ s.drive? = some .mixed

variable {s : Session}

/-! ## A step of the machine -/

/-- Whatever comes of a step of the machine, the session is coherent after it. -/
theorem Underway.advance (h : Underway s) : Coherent s.advance.2 := by
  obtain ⟨hp, hv, hf, hd, hr⟩ := h
  obtain ⟨-, e⟩ | ⟨-, e⟩ | ⟨fault, -, e⟩ := s.advance_cases hp
  · rw [e]
    by_cases hs : s.status = .running
    · exact ⟨hp, by simp [hs, hv], by simp [hv], by simp [hs], by simp [hs], fun _ => hd, fun _ => hr hs⟩
    · exact ⟨hp, by simp [hs, hv], by simp [hv], by simp [hs], by simp [hs], fun _ => hd, by simp [hs]⟩
  · obtain ⟨completions, ef⟩ := finish_eq { s with machine := s.machine.step.2 }
    rw [e, ef]
    refine ⟨hp, by simp, fun verdict hverdict => ?_, by simp [hf], by simp, fun _ => hd, by simp⟩
    exact (Option.some.inj hverdict).symm
  · rw [e]
    exact ⟨hp, by simp [hv], by simp [hv], by simp, by simp, fun _ => hd, by simp⟩

namespace Coherent

/-- An attempt without an ending has neither a verdict nor a fault. -/
theorem open_of_ending?_eq_none (h : Coherent s) (he : s.ending? = none) :
    s.status ≠ .finished ∧ s.status ≠ .faulted ∧ s.verdict = none ∧ s.lastFault = none := by
  have hfin : s.status ≠ .finished := by
    intro hs
    have hv := h.finished_iff.1 hs
    simp only [ending?, hs, Option.map_eq_none_iff] at he
    simp [he] at hv
  have hfau : s.status ≠ .faulted := by
    intro hs
    have hf := h.faulted_iff.1 hs
    simp only [ending?, hs, Option.map_eq_none_iff] at he
    simp [he] at hf
  refine ⟨hfin, hfau, ?_, ?_⟩
  · simpa using mt h.finished_iff.2 hfin
  · simpa using mt h.faulted_iff.2 hfau

theorem ending?_of_running (hs : s.status = .running) : s.ending? = none := by
  simp only [ending?, hs]

/-- A single step that is not refused finds the attempt underway. -/
theorem underway_step (h : Coherent s) (hs : s.status ≠ .running) (he : s.ending? = none) :
    Underway { s with stepped := true } := by
  obtain ⟨-, -, hv, hf⟩ := h.open_of_ending?_eq_none he
  exact ⟨h.machine_program, hv, hf, Drive.of?_true_left s.ran, fun hr => absurd hr hs⟩

/-- So does a tick of an active run. -/
theorem underway_tick (h : Coherent s) (hs : s.status = .running) : Underway s := by
  obtain ⟨-, -, hv, hf⟩ := h.open_of_ending?_eq_none (ending?_of_running hs)
  exact ⟨h.machine_program, hv, hf, h.driven (by simp [hs]), h.running⟩

/-! ## Calls -/

theorem step (h : Coherent s) : Coherent s.step.2 := by
  obtain ⟨-, e⟩ | ⟨ending, -, e⟩ | ⟨hr, he, e⟩ := s.step_cases
  · rw [e]; exact h
  · rw [e]; exact h
  · rw [e]; exact (h.underway_step hr he).advance

theorem tick (h : Coherent s) : Coherent s.tick.2 := by
  obtain ⟨-, e⟩ | ⟨hr, e⟩ := s.tick_cases
  · rw [e]; exact h
  · rw [e]; exact (h.underway_tick hr).advance

theorem start (h : Coherent s) : Coherent s.start := by
  unfold Session.start
  cases he : s.ending? with
  | some ending => exact h
  | none =>
    obtain ⟨-, -, hv, hf⟩ := h.open_of_ending?_eq_none he
    have hd := Drive.of?_true_right s.stepped
    refine ⟨h.machine_program, by simp [hv], by simp [hv], by simp [hf], by simp, fun _ => ?_, fun _ => hd⟩
    rcases hd with hd | hd <;> simp [drive?, hd]

theorem pause (h : Coherent s) : Coherent s.pause := by
  unfold Session.pause
  by_cases hs : s.status = .running
  · obtain ⟨-, -, hv, hf⟩ := h.open_of_ending?_eq_none (ending?_of_running hs)
    exact ⟨h.machine_program, by simp [hs, hv], by simp [hv], by simp [hs, hf], by simp [hs],
      fun _ => h.driven (by simp [hs]), by simp [hs]⟩
  · simp only [hs, if_false]
    exact ⟨h.machine_program, h.finished_iff, h.verdict_eq, h.faulted_iff, h.ready, h.driven, h.running⟩

/-- Before the first step there is nothing to take back; otherwise the attempt is paused. -/
theorem rewind (h : Coherent s) : Coherent s.rewind.2 := by
  obtain ⟨-, e⟩ | ⟨m, hm, e⟩ := s.rewind_cases
  · rw [e]; exact h
  · have hs : s.status ≠ .ready := by
      intro hs
      have hstart := (h.ready hs).1
      rw [hstart] at hm
      cases hm
    rw [e]
    simp only [hs, if_false]
    exact ⟨(Machine.rewind?_eq_some hm).2.2.trans h.machine_program, by simp, by simp, by simp, by simp,
      fun _ => h.driven hs, by simp⟩

theorem reset (s : Session) : Coherent s.reset :=
  ⟨rfl, by simp [Session.reset], by simp [Session.reset], by simp [Session.reset], fun _ => ⟨rfl, rfl⟩,
    by simp [Session.reset], by simp [Session.reset]⟩

end Coherent

theorem invariant_coherent : Invariant Coherent where
  step := fun _ h => h.step
  start := fun _ h => h.start
  tick := fun _ h => h.tick
  pause := fun _ h => h.pause
  rewind := fun _ h => h.rewind
  reset := fun s _ => Coherent.reset s
  cancel := fun _ _ h =>
    ⟨h.machine_program, h.finished_iff, h.verdict_eq, h.faulted_iff, h.ready, h.driven, h.running⟩

theorem coherent_build (c : Challenge) (program : Program) (settings : List Setting) :
    Coherent (build c program settings) := by
  obtain ⟨policy, sink, limit, e⟩ := build_eq c program settings
  rw [e]
  exact ⟨rfl, by simp [new], by simp [new], by simp [new], fun _ => ⟨rfl, rfl⟩, by simp [new],
    by simp [new]⟩

theorem coherent_calls (c : Challenge) (program : Program) (settings : List Setting)
    (ops : List Op) : Coherent ((build c program settings).calls ops) :=
  invariant_coherent.calls ops (coherent_build c program settings)

/-! ## Reports -/

/-- The later session has the completions of the earlier one and maybe new ones, and each new one names
the way the later session was driven. -/
def ReportsOnto (earlier later : Session) : Prop :=
  ∃ new, later.completions = earlier.completions ++ new ∧
    ∀ completion ∈ new, later.drive? = some completion.drive

theorem reportsOnto_of_eq {s s' : Session} (h : s'.completions = s.completions) : ReportsOnto s s' :=
  ⟨[], by simp [h], by simp⟩

theorem completions_report (s : Session) (stepCount : UInt64) :
    ∃ new, (s.report stepCount).completions = s.completions ++ new ∧
      ∀ completion ∈ new, completion.drive = s.drive?.getD .step := by
  unfold report
  cases s.sink with
  | none => exact ⟨[], by simp, by simp⟩
  | some sink =>
    dsimp only
    split <;> exact ⟨_, rfl, by simp⟩

/-- What an attempt reports when it ends names the way it was driven, if it was driven at all. -/
theorem reportsOnto_finish {s : Session} (hd : s.drive?.isSome) : ReportsOnto s s.finish.2 := by
  obtain ⟨drive, hdrive⟩ := Option.isSome_iff_exists.1 hd
  obtain ⟨completions, e⟩ := finish_eq s
  have hlater : s.finish.2.drive? = some drive := by rw [e]; exact hdrive
  by_cases hs : s.judge.success = true
  · obtain ⟨new, hnew, hall⟩ := completions_report
      { s with status := .finished, verdict := some s.judge } s.judge.stepCount
    refine ⟨new, by simp only [finish, hs, if_true, hnew], fun completion hc => ?_⟩
    have hcd : completion.drive = s.drive?.getD .step := hall completion hc
    rw [hlater, hcd, hdrive]
    rfl
  · exact reportsOnto_of_eq (by simp only [finish, hs, Bool.false_eq_true, if_false])

theorem Underway.reportsOnto_advance (h : Underway s) : ReportsOnto s s.advance.2 := by
  obtain ⟨-, e⟩ | ⟨-, e⟩ | ⟨fault, -, e⟩ := s.advance_cases h.machine_program
  · rw [e]; exact reportsOnto_of_eq rfl
  · rw [e]
    have hd : ({ s with machine := s.machine.step.2 } : Session).drive?.isSome := h.driven
    exact reportsOnto_finish hd
  · rw [e]; exact reportsOnto_of_eq rfl

theorem Underway.completions_of_advanced (h : Underway s) (ha : s.advance.1 = .advanced) :
    s.advance.2.completions = s.completions := by
  obtain ⟨-, e⟩ | ⟨-, e⟩ | ⟨fault, -, e⟩ := s.advance_cases h.machine_program
  · rw [e]
  · obtain ⟨completions, ef⟩ := finish_eq { s with machine := s.machine.step.2 }
    rw [e, ef] at ha
    cases ha
  · rw [e] at ha
    cases ha

/-- A timed run reports at its last tick only, so nothing changes after the report. -/
theorem reportsOnto_await {interval : Nat} {cancelAfter : Option Nat} :
    ∀ (alarms time : Nat) {s : Session}, Coherent s →
      ReportsOnto s (await interval cancelAfter alarms time s).2
  | 0, _, _, _ => reportsOnto_of_eq rfl
  | alarms + 1, time, s, h => by
    rw [await]
    split
    · exact reportsOnto_of_eq rfl
    · obtain ⟨-, e⟩ | ⟨hr, e⟩ := s.tick_cases
      · rw [e]; exact reportsOnto_of_eq rfl
      · have hu := h.underway_tick hr
        rw [e]
        cases ha : s.advance.1 with
        | advanced =>
          have hlater : ReportsOnto s.advance.2 (await interval cancelAfter alarms _ s.advance.2).2 :=
            reportsOnto_await alarms (time + interval) hu.advance
          rw [ReportsOnto, hu.completions_of_advanced ha] at hlater
          exact hlater
        | ended ending => exact hu.reportsOnto_advance
        | busy => exact hu.reportsOnto_advance

theorem completions_start (s : Session) : s.start.completions = s.completions := by
  unfold start
  cases s.ending? <;> rfl

/-- Every call: what it reports names the way the session was driven. -/
theorem reportsOnto_apply (h : Coherent s) (op : Op) : ReportsOnto s (s.apply op).2 := by
  cases op with
  | step =>
    simp only [apply]
    obtain ⟨-, e⟩ | ⟨ending, -, e⟩ | ⟨hr, he, e⟩ := s.step_cases
    · rw [e]; exact reportsOnto_of_eq rfl
    · rw [e]; exact reportsOnto_of_eq rfl
    · rw [e]; exact (h.underway_step hr he).reportsOnto_advance
  | tick =>
    simp only [apply]
    obtain ⟨-, e⟩ | ⟨hr, e⟩ := s.tick_cases
    · rw [e]; exact reportsOnto_of_eq rfl
    · rw [e]; exact (h.underway_tick hr).reportsOnto_advance
  | run interval cancelAfter alarms =>
    have hstart : ReportsOnto s.start (s.apply (.run interval cancelAfter alarms)).2 := by
      simp only [apply, run]
      split
      · exact reportsOnto_of_eq rfl
      · exact reportsOnto_await _ _ h.start
    rw [ReportsOnto, completions_start] at hstart
    exact hstart
  | rewind =>
    simp only [apply]
    obtain ⟨-, e⟩ | ⟨m, -, e⟩ := s.rewind_cases
    · rw [e]; exact reportsOnto_of_eq rfl
    · rw [e]; exact reportsOnto_of_eq rfl
  | start => exact reportsOnto_of_eq (completions_start s)
  | pause => exact reportsOnto_of_eq rfl
  | reset => exact reportsOnto_of_eq rfl
  | judge => exact reportsOnto_of_eq rfl
  | cancel handle => exact reportsOnto_of_eq rfl

/-- **A session is coherent.** After any settings and any calls it still is an attempt at its challenge
with its program; it is finished just when it has a verdict, which then is the verdict on the present
state, and faulted just when it has a fault; when ready it stands at the start with an empty history and
was not driven, otherwise it was driven, and by a run if one is active. No call reports a completion
without a way of driving. -/
theorem calls_coherent (c : Challenge) (program : Program) (settings : List Setting) (ops : List Op) :
    let s := (build c program settings).calls ops
    s.challenge = c ∧ s.program = program ∧ Coherent s ∧ ∀ op, ReportsOnto s (s.apply op).2 := by
  intro s
  have hcourse := (invariant_onCourse c program (build c program settings).policy).calls ops
    ⟨0, onCourse_build c program settings⟩
  obtain ⟨k, hk⟩ := hcourse
  have hs : Coherent s := coherent_calls c program settings ops
  exact ⟨hk.challenge_eq, hk.program_eq, hs, fun op => reportsOnto_apply hs op⟩

end Session

end SeatMachine
