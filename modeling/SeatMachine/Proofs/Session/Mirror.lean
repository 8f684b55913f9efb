import SeatMachine.Proofs.Machine.Mirror
import SeatMachine.Proofs.Session.Reporting
/-!
# Mirror images of attempts

Give a challenge two programs of which one is the other with its cursors exchanged, and drive both sessions by the
same calls. The sessions stay mirror images of each other (`Mirrors`), as long as the policy looks only at the kind
of a fault, as the policy for the boundary does: of two faults at the same place only the kind is the same.

`Mirrors.advance` says so of driving and `Mirrors.apply` of every call; the replies are `Alike`. The main theorem is
`mirror_symmetry`.
-/
namespace SeatMachine

/-! ## Replies alike -/

/-- The endings are the same but for the data of a fault. -/
inductive Ending.Alike : Ending → Ending → Prop
  | finished (verdict : Verdict) : Alike (.finished verdict) (.finished verdict)
  | faulted {fault fault' : Fault} : fault'.kind = fault.kind → Alike (.faulted fault) (.faulted fault')

inductive StepReply.Alike : StepReply → StepReply → Prop
  | advanced : Alike .advanced .advanced
  | busy : Alike .busy .busy
  | ended {ending ending' : Ending} : ending.Alike ending' → Alike (.ended ending) (.ended ending')

inductive RunReply.Alike : RunReply → RunReply → Prop
  | paused : Alike .paused .paused
  | ended {ending ending' : Ending} : ending.Alike ending' → Alike (.ended ending) (.ended ending')

/-- The policy looks only at the kind of a fault. -/
def Policy.IsByKind (policy : Policy) : Prop :=
  ∀ fault fault' : Fault, fault'.kind = fault.kind → policy fault' = policy fault

theorem Policy.isByKind_boundary : Policy.boundary.IsByKind := by
  intro fault fault' hk
  simp only [boundary, hk]

namespace Session

inductive Reply.Alike : Reply → Reply → Prop
  | same (reply : Reply) : Alike reply reply
  | step {reply reply' : StepReply} : reply.Alike reply' → Alike (.step reply) (.step reply')
  | tick {reply reply' : StepReply} : reply.Alike reply' → Alike (.tick (some reply)) (.tick (some reply'))
  | run {reply reply' : RunReply} : reply.Alike reply' → Alike (.run (some reply)) (.run (some reply'))

/-! ## Sessions alike -/

def mirror (s : Session) : Session :=
  { s with program := s.program.mirror, machine := s.machine.mirror }

/-- The second session is the mirror image of the first, but for the data of the fault that ended it: of that only the
kind is the same. -/
structure Mirrors (s s' : Session) : Prop where
  policy : s.policy.IsByKind
  same : ∃ lastFault, lastFault.map Fault.kind = s.lastFault.map Fault.kind ∧ s' = { s.mirror with lastFault }

theorem build_mirror (c : Challenge) (program : Program) (settings : List Setting) :
    build c program.mirror settings = (build c program settings).mirror := by
  suffices ∀ s : Session, settings.foldl configure s.mirror = (settings.foldl configure s).mirror from
    this (.new c program)
  induction settings with
  | nil => intro s; rfl
  | cons setting settings ih =>
    intro s
    have hone : s.mirror.configure setting = (s.configure setting).mirror := by
      cases setting <;> rfl
    rw [List.foldl_cons, List.foldl_cons, hone, ih]

namespace Mirrors

variable {s s' : Session}

theorem status_eq (h : Mirrors s s') : s'.status = s.status := by
  obtain ⟨-, lastFault, -, rfl⟩ := h
  rfl

theorem switches_eq (h : Mirrors s s') : s'.switches = s.switches := by
  obtain ⟨-, lastFault, -, rfl⟩ := h
  rfl

/-- The attempt is over in both or in neither, and has ended alike. -/
theorem ending?_cases (h : Mirrors s s') :
    (s.ending? = none ∧ s'.ending? = none) ∨
    ∃ ending ending', s.ending? = some ending ∧ s'.ending? = some ending' ∧ ending.Alike ending' := by
  obtain ⟨-, lastFault, hk, rfl⟩ := h
  unfold ending? mirror
  dsimp only
  cases s.status with
  | finished =>
    cases s.verdict with
    | none => exact Or.inl ⟨rfl, rfl⟩
    | some verdict => exact Or.inr ⟨_, _, rfl, rfl, .finished verdict⟩
  | faulted =>
    cases hf : s.lastFault with
    | none =>
      rw [hf] at hk
      have hnone : lastFault = none := Option.map_eq_none_iff.1 hk
      exact Or.inl ⟨rfl, by rw [hnone]; rfl⟩
    | some fault =>
      rw [hf] at hk
      obtain ⟨fault', rfl, hkind⟩ := Option.map_eq_some_iff.1 hk
      exact Or.inr ⟨_, _, rfl, rfl, .faulted hkind⟩
  | ready => exact Or.inl ⟨rfl, rfl⟩
  | running => exact Or.inl ⟨rfl, rfl⟩
  | paused => exact Or.inl ⟨rfl, rfl⟩

/-! ## Driving -/

/-- Ending an attempt judges the row and counts the instructions; neither depends on the cursors. -/
theorem finish (h : Mirrors s s') : s.finish.1.Alike s'.finish.1 ∧ Mirrors s.finish.2 s'.finish.2 := by
  obtain ⟨hp, lastFault, hk, rfl⟩ := h
  have hreported : ({ s.mirror with lastFault } : Session).reported = s.reported := by
    unfold reported mirror
    dsimp only
    rw [Program.instructionCount_mirror]
    rfl
  rw [finish_eq_reported, finish_eq_reported, hreported]
  exact ⟨.ended (.finished s.judge), hp, lastFault, hk, rfl⟩

theorem advance (h : Mirrors s s') : s.advance.1.Alike s'.advance.1 ∧ Mirrors s.advance.2 s'.advance.2 := by
  obtain ⟨hp, lastFault, hk, rfl⟩ := h
  obtain ⟨halike, hstep⟩ := s.machine.step_mirror
  have hline := s.machine.step.2.currentLine_mirror
  -- If the step ends the attempt, it is judged in the state after the step.
  have hover : Mirrors { s with machine := s.machine.step.2 }
      { s with program := s.program.mirror, machine := s.machine.step.2.mirror, lastFault } :=
    ⟨hp, lastFault, hk, rfl⟩
  obtain ⟨hsuccess, hcompleted, -⟩ := halike.flags
  unfold Session.advance mirror
  dsimp only
  rw [hstep, hline, Program.length_mirror, hsuccess, hcompleted]
  generalize s.machine.mirror.step.1 = outcome' at halike
  generalize s.machine.step.1 = outcome at halike
  split
  · exact hover.finish
  · cases halike with
    | advanced => exact ⟨.advanced, hp, none, rfl, rfl⟩
    | completed => exact ⟨.advanced, hp, none, rfl, rfl⟩
    | @failed fault fault' hkind =>
      simp only [Outcome.fault?, hp fault fault' hkind]
      cases s.policy fault with
      | soft => exact hover.finish
      | hard => exact ⟨.ended (.faulted hkind), hp, some fault', congrArg some hkind, rfl⟩

theorem start (h : Mirrors s s') : Mirrors s.start s'.start := by
  obtain ⟨he, he'⟩ | ⟨ending, ending', he, he', -⟩ := h.ending?_cases
  · rw [start_of_ending?_eq_none he, start_of_ending?_eq_none he']
    obtain ⟨hp, lastFault, hk, rfl⟩ := h
    exact ⟨hp, lastFault, hk, rfl⟩
  · rw [start_of_ending?_eq_some he, start_of_ending?_eq_some he']
    exact h

theorem step (h : Mirrors s s') : s.step.1.Alike s'.step.1 ∧ Mirrors s.step.2 s'.step.2 := by
  have hstepped : Mirrors { s with stepped := true } { s' with stepped := true } := by
    obtain ⟨hp, lastFault, hk, rfl⟩ := h
    exact ⟨hp, lastFault, hk, rfl⟩
  unfold Session.step
  by_cases hr : s.status = .running
  · rw [if_pos hr, if_pos (h.status_eq.trans hr)]
    exact ⟨.busy, h⟩
  · rw [if_neg hr, if_neg (h.status_eq ▸ hr)]
    obtain ⟨he, he'⟩ | ⟨ending, ending', he, he', hended⟩ := h.ending?_cases
    · rw [he, he']
      exact hstepped.advance
    · rw [he, he']
      exact ⟨.ended hended, h⟩

/-- A tick does nothing in both, or drives both. -/
theorem tick_cases (h : Mirrors s s') :
    (s.tick = (none, s) ∧ s'.tick = (none, s')) ∨
    ∃ reply reply' next next', s.tick = (some reply, next) ∧ s'.tick = (some reply', next') ∧
      reply.Alike reply' ∧ Mirrors next next' := by
  unfold tick
  rw [h.status_eq]
  split
  · exact Or.inr ⟨_, _, _, _, rfl, rfl, h.advance⟩
  · exact Or.inl ⟨rfl, rfl⟩

theorem pause (h : Mirrors s s') : Mirrors s.pause s'.pause := by
  obtain ⟨hp, lastFault, hk, rfl⟩ := h
  exact ⟨hp, lastFault, hk, rfl⟩

theorem rewind (h : Mirrors s s') : s'.rewind.1 = s.rewind.1 ∧ Mirrors s.rewind.2 s'.rewind.2 := by
  obtain ⟨hp, lastFault, hk, rfl⟩ := h
  have hmachine := s.machine.rewind?_mirror
  unfold Session.rewind mirror
  dsimp only
  rw [hmachine]
  cases s.machine.rewind? with
  | none => exact ⟨rfl, hp, lastFault, hk, rfl⟩
  | some machine => exact ⟨rfl, hp, none, rfl, rfl⟩

theorem reset (h : Mirrors s s') : Mirrors s.reset s'.reset := by
  obtain ⟨hp, lastFault, hk, rfl⟩ := h
  exact ⟨hp, none, rfl, rfl⟩

/-- Two runs on the same timer: the switches are the same, so both are paused at the same time or neither is. -/
theorem await (interval : Nat) (cancelAfter : Option Nat) : ∀ (alarms time : Nat) {s s' : Session}, Mirrors s s' →
    let result := Session.await interval cancelAfter alarms time s
    let result' := Session.await interval cancelAfter alarms time s'
    Reply.Alike (.run result.1) (.run result'.1) ∧ Mirrors result.2 result'.2
  | 0, _, _, _, h => ⟨.same _, h⟩
  | alarms + 1, time, s, s', h => by
    dsimp only
    rw [Session.await, Session.await, h.switches_eq]
    split
    · exact ⟨.same _, h.pause⟩
    · obtain ⟨e, e'⟩ | ⟨reply, reply', next, next', e, e', halike, hnext⟩ := h.tick_cases
      · rw [e, e']
        exact ⟨.same _, h⟩
      · rw [e, e']
        cases halike with
        | advanced => exact await interval cancelAfter alarms (time + interval) hnext
        | busy => exact ⟨.same _, hnext⟩
        | ended hended => exact ⟨.run (.ended hended), hnext⟩

/-! ## Calls -/

/-- Every call on both replies alike, and leaves mirror images. -/
theorem apply (h : Mirrors s s') (op : Op) :
    (s.apply op).1.Alike (s'.apply op).1 ∧ Mirrors (s.apply op).2 (s'.apply op).2 := by
  cases op with
  | step => exact ⟨.step h.step.1, h.step.2⟩
  | start => exact ⟨.same _, h.start⟩
  | tick =>
    obtain ⟨e, e'⟩ | ⟨reply, reply', next, next', e, e', halike, hnext⟩ := h.tick_cases
    · simp only [Session.apply, e, e']
      exact ⟨.same _, h⟩
    · simp only [Session.apply, e, e']
      exact ⟨.tick halike, hnext⟩
  | pause => exact ⟨.same _, h.pause⟩
  | rewind =>
    simp only [Session.apply, h.rewind.1]
    exact ⟨.same _, h.rewind.2⟩
  | reset => exact ⟨.same _, h.reset⟩
  | judge =>
    have hjudge : s'.judge = s.judge := by
      obtain ⟨-, lastFault, -, rfl⟩ := h
      rfl
    simp only [Session.apply, hjudge]
    exact ⟨.same _, h⟩
  | cancel handle =>
    obtain ⟨hp, lastFault, hk, rfl⟩ := h
    exact ⟨.same _, hp, lastFault, hk, rfl⟩
  | run interval cancelAfter alarms =>
    simp only [Session.apply, run]
    obtain ⟨he, he'⟩ | ⟨ending, ending', he, he', hended⟩ := h.start.ending?_cases
    · simp only [he, he']
      exact h.start.await _ cancelAfter alarms _
    · simp only [he, he']
      exact ⟨.run (.ended hended), h.start⟩

theorem calls : ∀ (ops : List Op) {s s' : Session}, Mirrors s s' →
    List.Forall₂ Reply.Alike (s.replies ops) (s'.replies ops) ∧ Mirrors (s.calls ops) (s'.calls ops)
  | [], _, _, h => ⟨.nil, h⟩
  | op :: ops, _, _, h => by
    obtain ⟨hreply, hnext⟩ := h.apply op
    obtain ⟨hreplies, hlast⟩ := calls ops hnext
    exact ⟨.cons hreply hreplies, hlast⟩

end Mirrors

/-- **The two cursors are alike.** Exchange them everywhere: in a program at every depth, in the cursors of a machine,
in its frames and in its history. Then a step of the machine, wherever its cursors stand below the greatest possible
position, has the same flags, a fault of the same kind if it has one, and leads to the machine with the cursors
exchanged. So a challenge under the policy for the boundary, given a program or its mirror image, has after the same
calls the same status and verdict, is judged alike and has a fault of the same kind; all replies on the way are
alike, the same completions are reported, and the machine of the one is that of the other with its cursors
exchanged. -/
theorem mirror_symmetry :
    (∀ m : Machine, m.moco < wordMax → m.choco < wordMax →
      ∃ outcome outcome' m', m.step? = some (outcome, m') ∧ m.mirror.step? = some (outcome', m'.mirror) ∧
        outcome'.isSuccess = outcome.isSuccess ∧ outcome'.isCompleted = outcome.isCompleted ∧
        outcome'.fault?.map Fault.kind = outcome.fault?.map Fault.kind) ∧
    ∀ (c : Challenge) (program : Program) (settings : List Setting) (ops : List Op),
      (build c program settings).policy = .boundary →
      let s := (build c program settings).calls ops
      let s' := (build c program.mirror settings).calls ops
      s'.status = s.status ∧ s'.verdict = s.verdict ∧ s'.judge = s.judge ∧
        s'.lastFault.map Fault.kind = s.lastFault.map Fault.kind ∧
        List.Forall₂ Reply.Alike ((build c program settings).replies ops)
          ((build c program.mirror settings).replies ops) ∧
        s'.completions = s.completions ∧ s'.machine = s.machine.mirror := by
  refine ⟨fun m hmoco hchoco => ?_, fun c program settings ops hpolicy => ?_⟩
  · obtain ⟨halike, hnext⟩ := m.step_mirror
    have hstep : m.mirror.step? = some m.mirror.step := Machine.step?_of_lt hchoco hmoco
    refine ⟨m.step.1, m.mirror.step.1, m.step.2, Machine.step?_of_lt hmoco hchoco, ?_, halike.flags⟩
    rw [hstep, ← hnext]
  · intro s s'
    have hstart : Mirrors (build c program settings) (build c program.mirror settings) := by
      rw [build_mirror]
      exact ⟨hpolicy ▸ Policy.isByKind_boundary, _, rfl, rfl⟩
    obtain ⟨hreplies, hp, lastFault, hk, e⟩ := hstart.calls ops
    have hs' : s' = { s.mirror with lastFault } := e
    rw [hs']
    exact ⟨rfl, rfl, rfl, hk, hreplies, rfl, rfl⟩

/-- An exchange of seats with both cursors off the row, where the fault names the same cursor in both machines; and a
program that runs off the row in one run and fails for want of a value in the hand after it is taken back. -/
theorem mirror_symmetry_off_row :
    let m : Machine :=
      { array := [1], moco := 3, choco := 2, stack := [⟨[.op .swap], 0⟩], history := .empty none, program := ⟨[]⟩ }
    let c : Challenge := { initialArray := [3, 1], targetArray := [1, 3] }
    let program : Program := ⟨[.op (.moveRight .choco), .op .swap, .op (.put .moco)]⟩
    let settings : List Setting := [.historyLimit 2]
    let ops : List Op := [.run 1 none 9, .rewind, .step]
    (m.moco < wordMax ∧ m.choco < wordMax ∧ m.step.1 = .failed (.pointerOutOfRange .moco 3 1) ∧
      m.mirror.step.1 = .failed (.pointerOutOfRange .moco 2 1) ∧
      ∃ outcome outcome' m', m.step? = some (outcome, m') ∧ m.mirror.step? = some (outcome', m'.mirror) ∧
        outcome'.fault?.map Fault.kind = outcome.fault?.map Fault.kind) ∧
    ((build c program settings).policy = .boundary ∧
      program.mirror = ⟨[.op (.moveRight .moco), .op .swap, .op (.put .choco)]⟩ ∧
      ((build c program settings).calls ops).status = .faulted ∧
      ((build c program.mirror settings).calls ops).status = ((build c program settings).calls ops).status ∧
      ((build c program.mirror settings).calls ops).judge = ((build c program settings).calls ops).judge) := by
  intro m c program settings ops
  obtain ⟨hmachine, hsession⟩ := mirror_symmetry
  obtain ⟨outcome, outcome', m', hstep, hstep', -, -, hk⟩ := hmachine m (by decide) (by decide)
  obtain ⟨hstatus, -, hjudge, -⟩ := hsession c program settings ops rfl
  refine ⟨⟨by decide, by decide, by decide, by decide, outcome, outcome', m', hstep, hstep', hk⟩,
    rfl, by decide, by decide, ?_, ?_⟩
  · with_reducible exact hstatus
  · with_reducible exact hjudge

end Session

end SeatMachine
