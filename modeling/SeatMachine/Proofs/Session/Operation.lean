import SeatMachine.Session.Run
/-!
# Operations on a session

A session is built with settings in any order and then driven by calls in any order. `build` and
`apply` are these as data, so that what is true of every way to drive an attempt can be said of a list
of calls. Each call replies; a reply may carry how the attempt ended.

`advance_cases` and `rewind_cases` say all that driving and taking back can do to a session, and
`ending?_of_apply` that a call only ever reports the ending its session then stands at.
-/
namespace SeatMachine

def StepReply.ending? : StepReply → Option Ending
  | .ended ending => some ending
  | _ => none

def RunReply.ending? : RunReply → Option Ending
  | .ended ending => some ending
  | .paused => none

namespace Session

/-! ## Building -/

/-- A choice made before an attempt is driven. -/
inductive Setting where
  | policy (policy : Policy)
  | historyLimit (limit : Nat)
  | sink (sink : Sink)

def configure (s : Session) : Setting → Session
  | .policy policy => s.withPolicy policy
  | .historyLimit limit => s.withHistoryLimit limit
  | .sink sink => s.withSink sink

/-- A new session with some settings, a later one overruling an earlier one. -/
def build (challenge : Challenge) (program : Program) (settings : List Setting) : Session :=
  settings.foldl configure (.new challenge program)

/-- Building only chooses a policy, a sink and a limit; nothing has been driven yet. -/
theorem build_eq (challenge : Challenge) (program : Program) (settings : List Setting) :
    ∃ policy sink limit, build challenge program settings =
      { Session.new challenge program with
        machine := .start challenge.initialArray program limit
        policy, sink, historyLimit := limit } := by
  suffices ∀ s : Session, (∃ policy sink limit, s = { Session.new challenge program with
        machine := .start challenge.initialArray program limit
        policy, sink, historyLimit := limit }) →
      ∃ policy sink limit, settings.foldl configure s = { Session.new challenge program with
        machine := .start challenge.initialArray program limit
        policy, sink, historyLimit := limit } from this _ ⟨_, _, _, rfl⟩
  induction settings with
  | nil => intro s hs; exact hs
  | cons setting settings ih =>
    rintro s ⟨policy, sink, limit, rfl⟩
    rw [List.foldl_cons]
    apply ih
    cases setting with
    | policy policy => exact ⟨policy, sink, limit, rfl⟩
    | historyLimit limit => exact ⟨policy, sink, some limit, rfl⟩
    | sink sink => exact ⟨policy, some sink, limit, rfl⟩

/-! ## Calling -/

/-- A call on a session. A timed run is given its interval, when its switch is thrown from outside, and
how often its timer may go off. -/
inductive Op where
  | step
  | start
  | tick
  | pause
  | rewind
  | reset
  | judge
  | cancel (handle : Handle)
  | run (interval : Nat) (cancelAfter : Option Nat) (alarms : Nat)
deriving DecidableEq, Repr

inductive Reply where
  | done
  | step (reply : StepReply)
  | tick (reply : Option StepReply)
  | rewind (isRewound : Bool)
  | verdict (verdict : Verdict)
  | run (reply : Option RunReply)
deriving DecidableEq, Repr

def Reply.ending? : Reply → Option Ending
  | .step reply => reply.ending?
  | .tick reply => reply.bind StepReply.ending?
  | .run reply => reply.bind RunReply.ending?
  | _ => none

def apply (s : Session) : Op → Reply × Session
  | .step => (.step s.step.1, s.step.2)
  | .start => (.done, s.start)
  | .tick => (.tick s.tick.1, s.tick.2)
  | .pause => (.done, s.pause)
  | .rewind => (.rewind s.rewind.1, s.rewind.2)
  | .reset => (.done, s.reset)
  | .judge => (.verdict s.judge, s)
  | .cancel handle => (.done, s.cancel handle)
  | .run interval cancelAfter alarms =>
    let result := s.run interval cancelAfter alarms
    (.run result.1, result.2)

def calls (s : Session) : List Op → Session
  | [] => s
  | op :: ops => (s.apply op).2.calls ops

/-- The replies of some calls, one after the other. -/
def replies (s : Session) : List Op → List Reply
  | [] => []
  | op :: ops => (s.apply op).1 :: (s.apply op).2.replies ops

/-- All endings that some calls report. -/
def endings (s : Session) (ops : List Op) : List Ending :=
  (s.replies ops).filterMap Reply.ending?

/-! ## What calls do -/

/-- A report adds to the completions and does nothing else. -/
theorem report_eq (s : Session) (stepCount : UInt64) :
    ∃ completions, s.report stepCount = { s with completions } := by
  unfold report
  split
  · exact ⟨s.completions, rfl⟩
  · dsimp only
    split <;> exact ⟨_, rfl⟩

theorem finish_eq (s : Session) :
    ∃ completions, s.finish =
      (.ended (.finished s.judge), { s with status := .finished, verdict := some s.judge, completions }) := by
  unfold finish
  dsimp only
  split
  · obtain ⟨completions, e⟩ := report_eq { s with status := .finished, verdict := some s.judge }
      s.judge.stepCount
    exact ⟨completions, by rw [e]⟩
  · exact ⟨s.completions, rfl⟩

end Session

/-- The place reached in a program; its length when nothing is being run any more. -/
def Snapshot.line (program : Program) (s : Snapshot) : Nat :=
  match s.stack.getLast? with
  | some frame => frame.pc
  | none => program.length

theorem Machine.currentLine_eq_line (m : Machine) : m.currentLine = m.toSnapshot.line m.program := rfl

/-- How a step from a snapshot ends an attempt; none if the attempt goes on. -/
def Challenge.endingAfter (c : Challenge) (program : Program) (policy : Policy) (s : Snapshot) :
    Option Ending :=
  match s.step program with
  | (.completed, s') => some (.finished (c.judge s'))
  | (.advanced, s') =>
    if program.length ≤ s'.line program then some (.finished (c.judge s')) else none
  | (.failed fault, s') =>
    if fault = .programCompleted ∨ policy fault = .soft then some (.finished (c.judge s'))
    else some (.faulted fault)

/-- The ending depends on the outcome of the step and on the snapshot it leads to. -/
theorem Challenge.endingAfter_eq (c : Challenge) (program : Program) (policy : Policy) (s : Snapshot) :
    c.endingAfter program policy s =
      let s' := (s.step program).2
      match (s.step program).1 with
      | .completed => some (.finished (c.judge s'))
      | .advanced =>
        if program.length ≤ s'.line program then some (.finished (c.judge s')) else none
      | .failed fault =>
        if fault = .programCompleted ∨ policy fault = .soft then some (.finished (c.judge s'))
        else some (.faulted fault) := by
  unfold endingAfter
  rcases s.step program with ⟨_ | _ | _, _⟩ <;> rfl

/-- All that a step can mean for an attempt: it goes on; it is judged, because the step leads to the end of
the program, completes or fails softly; or it has failed. -/
theorem Challenge.endingAfter_cases (c : Challenge) (program : Program) (policy : Policy) (s : Snapshot) :
    let outcome := (s.step program).1
    let s' := (s.step program).2
    (c.endingAfter program policy s = none ∧ outcome = .advanced) ∨
    (c.endingAfter program policy s = some (.finished (c.judge s')) ∧
      (outcome = .advanced ∧ program.length ≤ s'.line program ∨ outcome.isCompleted = true ∨
        ∃ fault, outcome = .failed fault ∧ policy fault = .soft)) ∨
    (∃ fault, c.endingAfter program policy s = some (.faulted fault) ∧ outcome = .failed fault ∧
      fault ≠ .programCompleted ∧ policy fault = .hard) := by
  intro outcome s'
  rw [endingAfter_eq]
  cases ho : (s.step program).1 with
  | completed => exact Or.inr (Or.inl ⟨rfl, Or.inr (Or.inl (by simp only [outcome, ho]; rfl))⟩)
  | advanced =>
    by_cases hl : program.length ≤ s'.line program
    · exact Or.inr (Or.inl ⟨if_pos hl, Or.inl ⟨ho, hl⟩⟩)
    · exact Or.inl ⟨if_neg hl, ho⟩
  | failed fault =>
    by_cases hdone : fault = .programCompleted
    · exact Or.inr (Or.inl ⟨if_pos (Or.inl hdone), Or.inr (Or.inl (by simp only [outcome, ho, hdone]; rfl))⟩)
    · cases hp : policy fault with
      | soft => exact Or.inr (Or.inl ⟨if_pos (Or.inr hp), Or.inr (Or.inr ⟨fault, ho, hp⟩)⟩)
      | hard => exact Or.inr (Or.inr ⟨fault, if_neg (by simp [hdone, hp]), ho, hdone, hp⟩)

theorem Outcome.isCompleted_failed (fault : Fault) :
    (Outcome.failed fault).isCompleted = decide (fault = .programCompleted) := by
  cases fault <;> rfl

namespace Session

/-- All that driving an attempt can do to it: the attempt goes on, is over and judged, or has failed.
Which of them depends only on the snapshot. -/
theorem advance_cases (s : Session) (hp : s.machine.program = s.program) :
    let ending? := s.challenge.endingAfter s.program s.policy s.machine.toSnapshot
    (ending? = none ∧
      s.advance = (.advanced, { s with
        machine := s.machine.step.2
        lastFault := none
        status := if s.status = .running then .running else .paused })) ∨
    (ending? = some (.finished (s.challenge.judge s.machine.step.2.toSnapshot)) ∧
      s.advance = { s with machine := s.machine.step.2 }.finish) ∨
    (∃ fault, ending? = some (.faulted fault) ∧
      s.advance = (.ended (.faulted fault), { s with
        machine := s.machine.step.2
        status := .faulted
        lastFault := some fault })) := by
  have hstep : s.machine.toSnapshot.step s.program = (s.machine.step.1, s.machine.step.2.toSnapshot) := by
    rw [← hp]; rfl
  have hline : s.machine.step.2.currentLine = s.machine.step.2.toSnapshot.line s.program := by
    rw [Machine.currentLine_eq_line, Machine.program_step, hp]
  dsimp only [Challenge.endingAfter]
  rw [hstep]
  unfold advance
  dsimp only
  rw [hline]
  cases s.machine.step.1 with
  | completed => exact Or.inr (Or.inl ⟨rfl, rfl⟩)
  | advanced =>
    -- A step that is done ends the attempt by the place it leads to, before the program is left.
    by_cases hl : s.program.length ≤ s.machine.step.2.toSnapshot.line s.program
    · refine Or.inr (Or.inl ⟨?_, ?_⟩)
      · simp only [hl, if_true]
      · simp only [hl, Outcome.isSuccess, decide_true, Bool.and_self, Bool.or_true, if_true]
    · refine Or.inl ⟨?_, ?_⟩
      · simp only [hl, if_false]
      · simp only [hl, Outcome.isSuccess, Outcome.isCompleted, Outcome.fault?, decide_false, Bool.and_false,
          Bool.or_false, Bool.false_eq_true, if_false]
  | failed fault =>
    by_cases hf : fault = .programCompleted
    · subst hf
      exact Or.inr (Or.inl ⟨rfl, rfl⟩)
    · simp only [hf, false_or, Outcome.isCompleted_failed, Outcome.isSuccess, Outcome.fault?, decide_false,
        Bool.false_and, Bool.or_false, Bool.false_eq_true, if_false]
      cases hs : s.policy fault with
      | soft => exact Or.inr (Or.inl ⟨rfl, rfl⟩)
      | hard => exact Or.inr (Or.inr ⟨fault, rfl, rfl⟩)

/-- Driving does a step of the machine and leaves alone what the attempt was set up with. -/
theorem advance_frame (s : Session) :
    s.advance.2.machine = s.machine.step.2 ∧ s.advance.2.challenge = s.challenge ∧
      s.advance.2.program = s.program ∧ s.advance.2.policy = s.policy := by
  unfold advance
  dsimp only
  obtain ⟨completions, e⟩ := finish_eq { s with machine := s.machine.step.2 }
  rw [e]
  split
  · exact ⟨rfl, rfl, rfl, rfl⟩
  · split
    · exact ⟨rfl, rfl, rfl, rfl⟩
    · split <;> exact ⟨rfl, rfl, rfl, rfl⟩

theorem ending?_advance {s : Session} (hp : s.machine.program = s.program) :
    s.advance.2.ending? = s.challenge.endingAfter s.program s.policy s.machine.toSnapshot := by
  obtain ⟨e, ea⟩ | ⟨e, ea⟩ | ⟨fault, e, ea⟩ := s.advance_cases hp
  · rw [e, ea]
    by_cases hr : s.status = .running
    · simp only [ending?, hr, if_true]
    · simp only [ending?, hr, if_false]
  · obtain ⟨completions, ef⟩ := finish_eq { s with machine := s.machine.step.2 }
    rw [e, ea, ef]; rfl
  · rw [e, ea]; rfl

theorem rewind_cases (s : Session) :
    (s.machine.rewind? = none ∧ s.rewind = (false, s)) ∨
    (∃ m, s.machine.rewind? = some m ∧
      s.rewind = (true, { s with
        machine := m
        lastFault := none
        verdict := none
        status := if s.status = .ready then .ready else .paused })) := by
  unfold rewind
  cases h : s.machine.rewind? with
  | none => exact Or.inl ⟨rfl, rfl⟩
  | some m => exact Or.inr ⟨m, rfl, rfl⟩

/-- All that a single step can do: it is refused, the attempt is over already, or it is driven. -/
theorem step_cases (s : Session) :
    (s.status = .running ∧ s.step = (.busy, s)) ∨
    (∃ ending, s.ending? = some ending ∧ s.step = (.ended ending, s)) ∨
    (s.status ≠ .running ∧ s.ending? = none ∧ s.step = { s with stepped := true }.advance) := by
  unfold step
  by_cases hr : s.status = .running
  · exact Or.inl ⟨hr, by rw [if_pos hr]⟩
  · rw [if_neg hr]
    cases he : s.ending? with
    | some ending => exact Or.inr (Or.inl ⟨ending, rfl, rfl⟩)
    | none => exact Or.inr (Or.inr ⟨hr, rfl, rfl⟩)

theorem tick_cases (s : Session) :
    (s.status ≠ .running ∧ s.tick = (none, s)) ∨
    (s.status = .running ∧ s.tick = (some s.advance.1, s.advance.2)) := by
  unfold tick
  by_cases hr : s.status = .running
  · exact Or.inr ⟨hr, by rw [if_pos hr]⟩
  · exact Or.inl ⟨hr, by rw [if_neg hr]⟩

/-! ## Reported endings -/

theorem ending?_of_finish {s : Session} {ending : Ending} (h : s.finish.1.ending? = some ending) :
    s.finish.2.ending? = some ending := by
  obtain ⟨completions, e⟩ := finish_eq s
  rw [e] at h ⊢
  exact h

theorem ending?_of_advance {s : Session} {ending : Ending} (h : s.advance.1.ending? = some ending) :
    s.advance.2.ending? = some ending := by
  revert h
  unfold advance
  dsimp only
  split
  · exact ending?_of_finish
  · split
    · intro h; cases h
    · split
      · exact ending?_of_finish
      · exact id

theorem ending?_of_await {interval : Nat} {cancelAfter : Option Nat} {ending : Ending} :
    ∀ (alarms time : Nat) (s : Session),
      (await interval cancelAfter alarms time s).1.bind RunReply.ending? = some ending →
      (await interval cancelAfter alarms time s).2.ending? = some ending
  | 0, _, _, h => by cases h
  | alarms + 1, time, s, h => by
    rw [await] at h ⊢
    split at h
    · cases h
    · rename_i hc
      rw [if_neg hc]
      obtain ⟨-, e⟩ | ⟨-, e⟩ := s.tick_cases
      · rw [e] at h; cases h
      · rw [e] at h ⊢
        cases ha : s.advance.1 with
        | advanced => rw [ha] at h; exact ending?_of_await alarms _ _ h
        | ended ending' => rw [ha] at h; exact ending?_of_advance (ha ▸ h)
        | busy => rw [ha] at h; cases h

/-- A call reports only the ending at which it leaves the session. -/
theorem ending?_of_apply {s : Session} {op : Op} {ending : Ending}
    (h : (s.apply op).1.ending? = some ending) : (s.apply op).2.ending? = some ending := by
  cases op with
  | step =>
    simp only [apply] at h ⊢
    obtain ⟨-, e⟩ | ⟨ending', he, e⟩ | ⟨-, -, e⟩ := s.step_cases
    · rw [e] at h; cases h
    · rw [e] at h ⊢; exact he.trans h
    · rw [e] at h ⊢; exact ending?_of_advance h
  | tick =>
    simp only [apply] at h ⊢
    obtain ⟨-, e⟩ | ⟨-, e⟩ := s.tick_cases
    · rw [e] at h; cases h
    · rw [e] at h ⊢; exact ending?_of_advance h
  | run interval cancelAfter alarms =>
    simp only [apply, run] at h ⊢
    cases he : s.start.ending? with
    | some ending' => rw [he] at h; exact he.trans h
    | none => rw [he] at h; exact ending?_of_await _ _ _ h
  | _ => cases h

/-! ## Invariants -/

/-- A property that every call keeps. A timed run needs no case of its own: it is made of a start, ticks
and a pause. -/
structure Invariant (P : Session → Prop) : Prop where
  step : ∀ s, P s → P s.step.2
  start : ∀ s, P s → P s.start
  tick : ∀ s, P s → P s.tick.2
  pause : ∀ s, P s → P s.pause
  rewind : ∀ s, P s → P s.rewind.2
  reset : ∀ s, P s → P s.reset
  cancel : ∀ s handle, P s → P (s.cancel handle)

namespace Invariant

variable {P : Session → Prop}

/-- Two properties that every call keeps are kept together. -/
theorem and {Q : Session → Prop} (hP : Invariant P) (hQ : Invariant Q) : Invariant fun s => P s ∧ Q s where
  step := fun s h => ⟨hP.step s h.1, hQ.step s h.2⟩
  start := fun s h => ⟨hP.start s h.1, hQ.start s h.2⟩
  tick := fun s h => ⟨hP.tick s h.1, hQ.tick s h.2⟩
  pause := fun s h => ⟨hP.pause s h.1, hQ.pause s h.2⟩
  rewind := fun s h => ⟨hP.rewind s h.1, hQ.rewind s h.2⟩
  reset := fun s h => ⟨hP.reset s h.1, hQ.reset s h.2⟩
  cancel := fun s handle h => ⟨hP.cancel s handle h.1, hQ.cancel s handle h.2⟩

theorem await (hP : Invariant P) {interval : Nat} {cancelAfter : Option Nat} :
    ∀ (alarms time : Nat) (s : Session), P s → P (Session.await interval cancelAfter alarms time s).2
  | 0, _, _, hs => hs
  | alarms + 1, time, s, hs => by
    rw [Session.await]
    split
    · exact hP.pause s hs
    · have ht := hP.tick s hs
      split <;> rename_i e <;> rw [e] at ht
      · exact hP.await alarms _ _ ht
      · exact ht
      · exact ht
      · exact ht

theorem apply (hP : Invariant P) {s : Session} (hs : P s) (op : Op) : P (s.apply op).2 := by
  cases op with
  | step => exact hP.step s hs
  | start => exact hP.start s hs
  | tick => exact hP.tick s hs
  | pause => exact hP.pause s hs
  | rewind => exact hP.rewind s hs
  | reset => exact hP.reset s hs
  | judge => exact hs
  | cancel handle => exact hP.cancel s handle hs
  | run interval cancelAfter alarms =>
    simp only [Session.apply, run]
    split
    · exact hP.start s hs
    · exact hP.await _ _ _ (hP.start s hs)

theorem calls (hP : Invariant P) : ∀ (ops : List Op) {s : Session}, P s → P (s.calls ops)
  | [], _, hs => hs
  | op :: ops, _, hs => hP.calls ops (hP.apply hs op)

/-- Whatever ending some calls report, a session with the property stands at it. -/
theorem exists_of_mem_endings (hP : Invariant P) {ending : Ending} :
    ∀ {ops : List Op} {s : Session}, P s → ending ∈ s.endings ops →
      ∃ s', P s' ∧ s'.ending? = some ending
  | [], _, _, h => by cases h
  | op :: ops, s, hs, h => by
    have hs' := hP.apply hs op
    rw [endings, replies, List.filterMap_cons] at h
    cases he : (s.apply op).1.ending? with
    | none => rw [he] at h; exact hP.exists_of_mem_endings hs' h
    | some ending' =>
      rw [he] at h
      rcases List.mem_cons.1 h with rfl | h
      · exact ⟨_, hs', ending?_of_apply he⟩
      · exact hP.exists_of_mem_endings hs' h

end Invariant

end Session

end SeatMachine
