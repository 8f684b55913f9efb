import SeatMachine.Proofs.Session.TimedRun
/-!
# Attempts that are over

An attempt that is over stays as it is until a step is taken back or it is reset. The calls find out that it
is over each in its own way: a single step looks for an ending after it has looked for an active run, a tick
looks for an active run only, and a run looks for an ending twice. In a coherent session they all agree,
because an attempt that is over has an ending (`Coherent.settled`) and an ending rules out an active run
(`Settled.status_ne_running`).

`Settled.apply` says what one call does, `Settled.calls` what any number of them do.
-/
namespace SeatMachine.Session

/-- The attempt is over, and this is how it ended. -/
inductive Settled (s : Session) : Ending → Prop
  | finished {verdict : Verdict} :
    s.status = .finished → s.verdict = some verdict → Settled s (.finished verdict)
  | faulted {fault : Fault} :
    s.status = .faulted → s.lastFault = some fault → Settled s (.faulted fault)

/-- What a call replies if the attempt is over. A single step and a run say how it ended, and the run needs
no alarm for that; a tick does nothing. -/
def settledReply (ending : Ending) (verdict : Verdict) : Op → Reply
  | .step => .step (.ended ending)
  | .tick => .tick none
  | .run _ _ _ => .run (some (.ended ending))
  | .judge => .verdict verdict
  | _ => .done

variable {s : Session} {ending : Ending}

theorem Coherent.settled (h : Coherent s) (hover : s.status = .finished ∨ s.status = .faulted) :
    ∃ ending, Settled s ending := by
  rcases hover with hs | hs
  · obtain ⟨verdict, hv⟩ := Option.isSome_iff_exists.1 (h.finished_iff.1 hs)
    exact ⟨.finished verdict, .finished hs hv⟩
  · obtain ⟨fault, hf⟩ := Option.isSome_iff_exists.1 (h.faulted_iff.1 hs)
    exact ⟨.faulted fault, .faulted hs hf⟩

namespace Settled

theorem ending?_eq (h : Settled s ending) : s.ending? = some ending := by
  cases h with
  | finished hs hv => simp [ending?, hs, hv]
  | faulted hs hf => simp [ending?, hs, hf]

theorem status_ne_running (h : Settled s ending) : s.status ≠ .running := by
  intro hr
  cases h with
  | finished hs _ => rw [hs] at hr; cases hr
  | faulted hs _ => rw [hs] at hr; cases hr

theorem switches (h : Settled s ending) (switches : Switchboard) : Settled { s with switches } ending := by
  cases h with
  | finished hs hv => exact .finished hs hv
  | faulted hs hf => exact .faulted hs hf

/-- One call on an attempt that is over can only change the switches. -/
theorem apply (h : Settled s ending) {op : Op} (hrewind : op ≠ .rewind) (hreset : op ≠ .reset) :
    ∃ switches, s.apply op = (settledReply ending s.judge op, { s with switches }) := by
  have he := h.ending?_eq
  have hr := h.status_ne_running
  cases op with
  | step => exact ⟨s.switches, by simp [Session.apply, step, hr, he, settledReply]⟩
  | start => exact ⟨s.switches, by simp [Session.apply, start_of_ending?_eq_some he, settledReply]⟩
  | tick => exact ⟨s.switches, by simp [Session.apply, tick, hr, settledReply]⟩
  | pause =>
    exact ⟨(s.switches.throw s.switches.present).renew, by simp [Session.apply, pause, hr, settledReply]⟩
  | judge => exact ⟨s.switches, rfl⟩
  | cancel handle => exact ⟨s.switches.throw handle, rfl⟩
  | run interval cancelAfter alarms =>
    exact ⟨s.switches, by simp [Session.apply, run_of_ending?_eq_some he, settledReply]⟩
  | rewind => exact absurd rfl hrewind
  | reset => exact absurd rfl hreset

theorem calls : ∀ {later : List Op} {s : Session}, Settled s ending → .rewind ∉ later → .reset ∉ later →
    (∃ switches, s.calls later = { s with switches }) ∧
      s.replies later = later.map (settledReply ending s.judge)
  | [], s, _, _, _ => ⟨⟨s.switches, rfl⟩, rfl⟩
  | op :: later, s, h, hrewind, hreset => by
    rw [List.mem_cons, not_or] at hrewind hreset
    obtain ⟨board, e⟩ := h.apply (Ne.symm hrewind.1) (Ne.symm hreset.1)
    obtain ⟨⟨board', hcalls⟩, hreplies⟩ := (h.switches board).calls hrewind.2 hreset.2
    refine ⟨⟨board', ?_⟩, ?_⟩
    · rw [Session.calls, e]
      exact hcalls
    · rw [replies, e, List.map_cons]
      exact congrArg _ hreplies

end Settled

/-- **An attempt that is over is frozen.** Take any session whose status is finished or faulted, and make any
calls on it but rewinds and resets. Nothing changes but the switches: the machine with its history, the
status, the verdict, the fault, the way it was driven and the completions all stay. Every single step replies
the ending that is stored, every tick nothing, and every run that same ending, without waiting for its
timer. -/
theorem frozen_of_settled (c : Challenge) (program : Program) (settings : List Setting) (ops later : List Op)
    (hover : ((build c program settings).calls ops).status = .finished ∨
      ((build c program settings).calls ops).status = .faulted)
    (hrewind : .rewind ∉ later) (hreset : .reset ∉ later) :
    let s := (build c program settings).calls ops
    ∃ ending, Settled s ending ∧
      (∃ switches, s.calls later = { s with switches }) ∧
      s.replies later = later.map (settledReply ending s.judge) := by
  intro s
  obtain ⟨ending, h⟩ := (coherent_calls c program settings ops).settled hover
  exact ⟨ending, h, h.calls hrewind hreset⟩

/-- A run that solved its challenge and a step that failed; neither is moved by steps, ticks, a thrown switch,
runs and a pause. -/
theorem frozen_of_settled_solved_and_failed :
    let c : Challenge := { id := "copy", initialArray := [7, 0], targetArray := [7, 7] }
    let copy : Program := ⟨[.op (.pick .moco), .op (.moveRight .moco), .op (.put .moco)]⟩
    let put : Program := ⟨[.op (.put .moco)]⟩
    let settings : List Setting := [.historyLimit 2, .sink ⟨fun _ => .ok ()⟩]
    let later : List Op := [.step, .start, .tick, .cancel ⟨0⟩, .run 5 (some 2) 0, .pause, .judge, .step]
    let solved := (build c copy settings).calls [.run 1 none 9]
    let failed := (build c put settings).calls [.step]
    (solved.status = .finished ∧ (∃ switches, solved.calls later = { solved with switches }) ∧
      solved.replies later = later.map (settledReply (.finished ⟨.solved true, 3⟩) solved.judge)) ∧
    (failed.status = .faulted ∧ (∃ switches, failed.calls later = { failed with switches }) ∧
      failed.replies later = later.map (settledReply (.faulted (.handEmpty 0 0)) failed.judge)) := by
  intro c copy put settings later solved failed
  have hsolved : solved.status = .finished := by decide
  have hfailed : failed.status = .faulted := by decide
  obtain ⟨ending, h, hsame, hreplies⟩ :=
    frozen_of_settled c copy settings [.run 1 none 9] later (Or.inl hsolved) (by decide) (by decide)
  obtain ⟨ending', h', hsame', hreplies'⟩ :=
    frozen_of_settled c put settings [.step] later (Or.inr hfailed) (by decide) (by decide)
  obtain rfl : ending = .finished ⟨.solved true, 3⟩ := Option.some.inj (h.ending?_eq.symm.trans (by decide))
  obtain rfl : ending' = .faulted (.handEmpty 0 0) := Option.some.inj (h'.ending?_eq.symm.trans (by decide))
  exact ⟨⟨hsolved, hsame, hreplies⟩, ⟨hfailed, hsame', hreplies'⟩⟩

end SeatMachine.Session
