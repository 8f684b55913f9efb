import SeatMachine.Proofs.Session.PauseHandle
import SeatMachine.Proofs.Session.Reporting
/-!
# Starting over

A reset leaves two traces of what was before: the switches that were ever in place, because handles of them
may still be held, and the completions that were reported. `withPast` adds such traces to a session, and
`apply_withPast` says that no call looks at them, as long as it throws no switch through an old handle. A
session that was reset is a new one with a past (`reset_eq_withPast`), so it cannot be told from a new one:
`reset_same_as_new`.

Handles are numbers of switches, so a handle that is taken after a reset has another number than the handle
that is taken from a new session at the same time. `Handle.since` counts from the reset on.
-/
namespace SeatMachine

/-- The number of the handle, counted from the `n`-th switch on. -/
def Handle.since (n : Nat) (handle : Handle) : Handle :=
  ⟨handle.number - n⟩

/-! ## The board -/

namespace Switchboard

variable {board : Switchboard} {handle : Handle}

/-- The board with older switches before its own. -/
def behind (older : List Bool) (board : Switchboard) : Switchboard :=
  ⟨older ++ board.thrown, ⟨older.length + board.present.number⟩⟩

theorem isThrown_behind {older : List Bool} (h : older.length ≤ handle.number) :
    (board.behind older).isThrown handle = board.isThrown (handle.since older.length) := by
  simp [behind, isThrown, Handle.since, List.getD_eq_getElem?_getD, List.getElem?_append_right h]

@[simp]
theorem isPresentThrown_behind (older : List Bool) (board : Switchboard) :
    (board.behind older).isPresentThrown = board.isPresentThrown := by
  have hthrown : (board.behind older).isThrown (board.behind older).present = _ :=
    isThrown_behind (Nat.le_add_right _ _)
  simpa [behind, isPresentThrown, Handle.since] using hthrown

theorem throw_behind {older : List Bool} (h : older.length ≤ handle.number) :
    (board.behind older).throw handle = (board.throw (handle.since older.length)).behind older := by
  simp [behind, throw, Handle.since, List.set_append_right _ _ h]

theorem renew_behind (older : List Bool) (board : Switchboard) :
    (board.behind older).renew = board.renew.behind older := by
  simp [behind, renew]

theorem replace_behind (older : List Bool) (board : Switchboard) :
    (board.behind older).replace = board.replace.behind older := by
  have hthrow : (board.behind older).throw (board.behind older).present = _ :=
    throw_behind (Nat.le_add_right _ _)
  rw [replace, replace, hthrow, renew_behind]
  simp [behind, Handle.since]

/-- A board whose newest switch is fresh is a new board with older switches before it. -/
theorem InOrder.eq_behind (h : board.InOrder) (hfresh : board.isPresentThrown = false) :
    ∃ older, older.length = board.present.number ∧ board = start.behind older := by
  obtain ⟨thrown, number⟩ := board
  obtain rfl | ⟨older, last, rfl⟩ := thrown.eq_nil_or_concat
  · cases h.newest
  · have hlength : older.length = number.number := by simpa using h.newest
    simp [isPresentThrown, isThrown, ← hlength, List.getD_eq_getElem?_getD] at hfresh
    exact ⟨older, hlength, by simp [behind, start, hfresh, hlength]⟩

end Switchboard

namespace Session

/-! ## A past -/

/-- What a session may have from before a reset: its sink, older switches and earlier completions. -/
structure Past where
  sink : Option Sink
  older : List Bool
  earlier : List Completion

def withPast (s : Session) (past : Past) : Session :=
  { s with
    sink := past.sink
    switches := s.switches.behind past.older
    completions := past.earlier ++ s.completions }

/-- The call with its handle counted from the `n`-th switch on. -/
def Op.since (n : Nat) : Op → Op
  | .cancel handle => .cancel (handle.since n)
  | op => op

variable {s : Session} {past : Past}

theorem finish_withPast (hsink : past.sink.isSome = s.sink.isSome) :
    (s.withPast past).finish = (s.finish.1, s.finish.2.withPast past) := by
  have hreported : (s.withPast past).reported = s.reported := by
    unfold reported withPast
    rw [hsink]
    rfl
  rw [finish_eq_reported, finish_eq_reported, hreported]
  simp only [withPast, List.append_assoc]
  rfl

theorem advance_withPast (hsink : past.sink.isSome = s.sink.isSome) :
    (s.withPast past).advance = (s.advance.1, s.advance.2.withPast past) := by
  have hfinish : (({ s with machine := s.machine.step.2 } : Session).withPast past).finish = _ :=
    finish_withPast hsink
  unfold withPast advance at *
  dsimp only at hfinish ⊢
  rw [hfinish]
  split
  · rfl
  · split
    · rfl
    · split <;> rfl

theorem start_withPast (s : Session) (past : Past) : (s.withPast past).start = s.start.withPast past := by
  have hending : (s.withPast past).ending? = s.ending? := rfl
  unfold start
  rw [hending]
  split <;> rfl

theorem tick_withPast (hsink : past.sink.isSome = s.sink.isSome) :
    (s.withPast past).tick = (s.tick.1, s.tick.2.withPast past) := by
  have hstatus : (s.withPast past).status = s.status := rfl
  unfold tick
  rw [advance_withPast hsink, hstatus]
  split <;> rfl

theorem pause_withPast (s : Session) (past : Past) : (s.withPast past).pause = s.pause.withPast past := by
  have hboard : (s.switches.behind past.older).replace = s.switches.replace.behind past.older :=
    s.switches.replace_behind past.older
  unfold Switchboard.replace at hboard
  simp only [pause, withPast, hboard]
  rfl

theorem await_withPast (interval : Nat) (cancelAfter : Option Nat) : ∀ (alarms time : Nat) {s : Session},
    past.sink.isSome = s.sink.isSome →
      await interval cancelAfter alarms time (s.withPast past) =
        ((await interval cancelAfter alarms time s).1,
          (await interval cancelAfter alarms time s).2.withPast past)
  | 0, _, _, _ => rfl
  | alarms + 1, time, s, hsink => by
    have hthrown : (s.withPast past).switches.isPresentThrown = s.switches.isPresentThrown :=
      s.switches.isPresentThrown_behind past.older
    have hkept : s.tick.2.sink = s.sink := (invariant_sink s.sink).tick s rfl
    rw [await, await, tick_withPast hsink, hthrown]
    rw [← hkept] at hsink
    split
    · rw [pause_withPast]
    · generalize s.tick = result at hsink
      rcases result with ⟨_ | _ | _ | _, s'⟩
      · rfl
      · exact await_withPast interval cancelAfter alarms _ hsink
      · rfl
      · rfl

/-- No call looks at the past, unless it throws an old switch. -/
theorem apply_withPast (hsink : past.sink.isSome = s.sink.isSome) {op : Op}
    (hsince : ∀ handle, op = .cancel handle → past.older.length ≤ handle.number) :
    let result := s.apply (op.since past.older.length)
    (s.withPast past).apply op = (result.1, result.2.withPast past) := by
  have hending : (s.withPast past).ending? = s.ending? := rfl
  cases op with
  | step =>
    have hstatus : (s.withPast past).status = s.status := rfl
    have hadvance : (({ s with stepped := true } : Session).withPast past).advance = _ :=
      advance_withPast hsink
    simp only [apply, Op.since, step, hending, hstatus]
    split
    · rfl
    · cases s.ending? with
      | some ending => rfl
      | none => exact congrArg (fun r : StepReply × Session => (Reply.step r.1, r.2)) hadvance
  | start => simp only [apply, Op.since, start_withPast]
  | tick => simp only [apply, Op.since, tick_withPast hsink]
  | pause => simp only [apply, Op.since, pause_withPast]
  | rewind =>
    have hmachine : (s.withPast past).machine = s.machine := rfl
    simp only [apply, Op.since, rewind, hmachine]
    cases s.machine.rewind? with
    | none => rfl
    | some m => rfl
  | reset =>
    simp only [apply, Op.since, reset, withPast, Switchboard.isPresentThrown_behind, Switchboard.renew_behind]
    split <;> rfl
  | judge => rfl
  | cancel handle =>
    simp only [apply, Op.since, cancel, withPast, Switchboard.throw_behind (hsince handle rfl)]
  | run interval cancelAfter alarms =>
    have hstart : (s.start.withPast past).ending? = s.start.ending? := rfl
    have hkept : s.start.sink = s.sink := (invariant_sink s.sink).start s rfl
    rw [← hkept] at hsink
    simp only [apply, Op.since, run, start_withPast, hstart]
    cases s.start.ending? with
    | some ending => rfl
    | none => simp only [await_withPast _ _ _ _ hsink]

theorem since_pauseHandle (s : Session) (past : Past) :
    (s.withPast past).pauseHandle.since past.older.length = s.pauseHandle := by
  simp [withPast, pauseHandle, Switchboard.behind, Handle.since]

/-- Neither do any number of calls, and the handles that can be taken differ by the older switches only. -/
theorem calls_withPast (past : Past) (ops : List Op) : ∀ {s : Session}, past.sink.isSome = s.sink.isSome →
    (∀ handle, .cancel handle ∈ ops → past.older.length ≤ handle.number) →
      let ops' := ops.map (Op.since past.older.length)
      (s.withPast past).replies ops = s.replies ops' ∧
      (s.withPast past).calls ops = (s.calls ops').withPast past ∧
      ((s.withPast past).handles ops).map (Handle.since past.older.length) = s.handles ops' := by
  induction ops with
  | nil =>
    intro s _ _
    exact ⟨rfl, rfl, by simp [handles, since_pauseHandle]⟩
  | cons op ops ih =>
    intro s hsink hsince
    have hop : (s.withPast past).apply op = _ := apply_withPast hsink fun handle e => hsince handle (by simp [e])
    have hkept : (s.apply (op.since past.older.length)).2.sink = s.sink := (invariant_sink s.sink).apply rfl _
    rw [← hkept] at hsink
    obtain ⟨hreplies, hcalls, hhandles⟩ := ih hsink fun handle hmem => hsince handle (List.mem_cons_of_mem _ hmem)
    simp only [replies, calls, handles, List.map_cons, hop, hreplies, hcalls, hhandles, since_pauseHandle,
      and_self]

/-! ## After a reset -/

/-- Handles that are taken later are of the switch in place or of newer ones. -/
theorem le_number_of_mem_handles : ∀ (ops : List Op) {s : Session} {handle : Handle}, Coherent s →
    s.switches.InOrder → handle ∈ s.handles ops → s.pauseHandle.number ≤ handle.number
  | [], s, handle, _, _, hmem => by
    rw [List.mem_singleton.1 hmem]
  | op :: ops, s, handle, h, ho, hmem => by
    rcases List.mem_cons.1 hmem with rfl | hmem
    · exact Nat.le_refl _
    · have hle : s.pauseHandle.number ≤ (s.apply op).2.pauseHandle.number := by
        rw [pauseHandle, pauseHandle, switches_apply h]
        exact present_le_switchesAfter ho op _
      exact hle.trans (le_number_of_mem_handles ops (invariant_coherent.apply h op)
        (invariant_inOrder.apply ho op) hmem)

theorem handles_bare (ops : List Op) : ∀ s : Session, s.bare.handles ops = s.handles ops := by
  induction ops with
  | nil => exact fun s => rfl
  | cons op ops ih =>
    intro s
    simp only [handles, apply_bare, ih]
    rfl

/-- Calls leave alone what a session was set up with. -/
theorem settings_calls (s : Session) (ops : List Op) :
    (s.calls ops).challenge = s.challenge ∧ (s.calls ops).program = s.program ∧
      (s.calls ops).policy = s.policy ∧ (s.calls ops).historyLimit = s.historyLimit := by
  let part (s : Session) := (s.challenge, s.program, s.policy, s.historyLimit)
  have hkept : part (s.calls ops) = part s :=
    (invariant_of_frame part (fun _ _ _ _ _ _ _ _ _ => rfl) (part s)).calls ops rfl
  simpa only [part, Prod.mk.injEq] using hkept

/-- A session that is reset is a new one with a past. -/
theorem reset_eq_withPast (c : Challenge) (program : Program) (settings settings' : List Setting)
    (hpolicy : (build c program settings').policy = (build c program settings).policy)
    (hlimit : (build c program settings').historyLimit = (build c program settings).historyLimit)
    (ops : List Op) :
    let s := ((build c program settings).calls ops).reset
    ∃ older, older.length = s.pauseHandle.number ∧
      s = (build c program settings').withPast ⟨s.sink, older, s.completions⟩ := by
  intro s
  obtain ⟨policy, sink, limit, hbuild⟩ := build_eq c program settings
  obtain ⟨policy', sink', limit', hbuild'⟩ := build_eq c program settings'
  obtain ⟨hchallenge, hprogram, hpolicy_eq, hlimit_eq⟩ := settings_calls (build c program settings) ops
  have hc : (build c program settings).challenge = c := by rw [hbuild]; rfl
  have hp : (build c program settings).program = program := by rw [hbuild]; rfl
  rw [hc] at hchallenge
  rw [hp] at hprogram
  rw [← hpolicy, hbuild'] at hpolicy_eq
  rw [← hlimit, hbuild'] at hlimit_eq
  have ho : s.switches.InOrder := invariant_inOrder.reset _ (inOrder_calls c program settings ops)
  have hfresh : s.switches.isPresentThrown = false := by
    by_cases ht : ((build c program settings).calls ops).switches.isPresentThrown = true
    · simp [s, reset, ht]
    · simp [s, reset, ht]
  obtain ⟨older, hlength, hboard⟩ := ho.eq_behind hfresh
  refine ⟨older, hlength, ?_⟩
  have hreset : s = { s with switches := Switchboard.start.behind older } := by rw [← hboard]
  rw [hreset, hbuild']
  simp only [s, reset, withPast, new, hchallenge, hprogram, hpolicy_eq, hlimit_eq, List.append_nil]

/-- **A reset leaves no trace of earlier attempts.** Make any calls on a session, reset it, and make any more
calls, with handles that are taken after the reset. Then build another session with the same challenge,
program, policy and limit on its history, and make the same calls on it, with the handles that are taken at
the same time; only the numbers of the handles differ. All replies are the same, and so are the sessions that
the calls lead to: their machines with their histories, their status, verdict and fault and the way they were
driven. A handle is thrown in the one just if it is in the other. If both have a sink, or neither has, the
same completions are reported. -/
theorem reset_same_as_new (c : Challenge) (program : Program) (settings settings' : List Setting)
    (hpolicy : (build c program settings').policy = (build c program settings).policy)
    (hlimit : (build c program settings').historyLimit = (build c program settings).historyLimit)
    (ops later : List Op)
    (htaken : ∀ handle, .cancel handle ∈ later →
      handle ∈ ((build c program settings).calls ops).reset.handles later) :
    let s := ((build c program settings).calls ops).reset
    let fresh := build c program settings'
    let n := s.pauseHandle.number
    let later' := later.map (Op.since n)
    (s.handles later).map (Handle.since n) = fresh.handles later' ∧
    s.replies later = fresh.replies later' ∧
    (∃ switches, (s.calls later).bare = { (fresh.calls later').bare with switches }) ∧
    (∀ handle ∈ s.handles later,
      (s.calls later).switches.isThrown handle =
        (fresh.calls later').switches.isThrown (handle.since n)) ∧
    (s.sink.isSome = fresh.sink.isSome →
      (s.calls later).completions = s.completions ++ (fresh.calls later').completions) := by
  intro s fresh n later'
  obtain ⟨older, hlength, e⟩ := reset_eq_withPast c program settings settings' hpolicy hlimit ops
  have hn : older.length = n := hlength
  have hnumber : ∀ handle ∈ s.handles later, n ≤ handle.number := fun handle hmem =>
    le_number_of_mem_handles later (Coherent.reset _)
      (invariant_inOrder.reset _ (inOrder_calls c program settings ops)) hmem
  have hsince : ∀ handle, .cancel handle ∈ later → older.length ≤ handle.number := fun handle hmem =>
    hn ▸ hnumber handle (htaken handle hmem)
  -- Both sessions are compared without their sinks, which need not agree.
  have hbare : s.bare = fresh.bare.withPast ⟨none, older, []⟩ := by
    have e' : s = fresh.withPast ⟨s.sink, older, s.completions⟩ := e
    rw [e']
    rfl
  obtain ⟨hreplies, hcalls, hhandles⟩ := calls_withPast ⟨none, older, []⟩ later (s := fresh.bare) rfl hsince
  rw [← hbare, hn] at hreplies hcalls hhandles
  rw [(calls_bare later s).1, (calls_bare later' fresh).1] at hreplies
  rw [(calls_bare later s).2, (calls_bare later' fresh).2] at hcalls
  rw [handles_bare, handles_bare] at hhandles
  refine ⟨hhandles, hreplies, ⟨_, hcalls⟩, ?_, ?_⟩
  · intro handle hmem
    have hswitches : (s.calls later).switches = (fresh.calls later').switches.behind older :=
      congrArg Session.switches hcalls
    rw [hswitches, Switchboard.isThrown_behind (hn ▸ hnumber handle hmem), hn]
  · intro hsink
    obtain ⟨-, hcalls', -⟩ := calls_withPast ⟨s.sink, older, s.completions⟩ later hsink hsince
    rw [← e, hn] at hcalls'
    exact congrArg Session.completions hcalls'

/-- An attempt that was solved and whose switch was thrown, started over: a run is paused through a handle of
the third switch, and the next one solves the challenge again, as in a new session through its first. -/
theorem reset_same_as_new_after_solving :
    let c : Challenge := { id := "copy", initialArray := [7, 0], targetArray := [7, 7] }
    let copy : Program := ⟨[.op (.pick .moco), .op (.moveRight .moco), .op (.put .moco)]⟩
    let settings : List Setting := [.sink ⟨fun _ => .ok ()⟩, .historyLimit 1]
    let settings' : List Setting := [.historyLimit 3, .historyLimit 1, .sink ⟨fun _ => .error "closed"⟩]
    let ops : List Op := [.step, .pause, .step, .cancel ⟨1⟩, .step]
    let later : List Op := [.step, .cancel ⟨2⟩, .run 5 none 9, .rewind, .run 5 none 9]
    let later' : List Op := [.step, .cancel ⟨0⟩, .run 5 none 9, .rewind, .run 5 none 9]
    let s := ((build c copy settings).calls ops).reset
    let fresh := build c copy settings'
    (s.switches.isPresentThrown = false ∧ s.pauseHandle = ⟨2⟩ ∧ s.completions.length = 1) ∧
    s.replies later = fresh.replies later' ∧
    (s.calls later).completions = s.completions ++ (fresh.calls later').completions ∧
    (s.calls later).completions.length = 2 := by
  intro c copy settings settings' ops later later' s fresh
  have htaken : ∀ handle, .cancel handle ∈ later → handle ∈ s.handles later := by
    intro handle hmem
    have hhandle : handle = ⟨2⟩ := by simpa [later] using hmem
    subst hhandle
    decide
  have hlater : later.map (Op.since s.pauseHandle.number) = later' := by decide
  have hsink : s.sink.isSome = fresh.sink.isSome := by decide
  obtain ⟨-, hreplies, -, -, hcompletions⟩ :=
    reset_same_as_new c copy settings settings' rfl rfl ops later htaken
  rw [hlater] at hreplies hcompletions
  refine ⟨⟨by decide, by decide, by decide⟩, ?_, ?_, by decide⟩
  · -- Nothing is to be evaluated here.
    with_reducible exact hreplies
  · with_reducible exact hcompletions hsink

end Session

end SeatMachine
