import SeatMachine.Completion
import SeatMachine.Machine.Step
import SeatMachine.Session.Switch
import SeatMachine.Verdict
/-!
# Sessions

A session is one attempt at a challenge. It owns a machine and decides what each step means for the
attempt: go on, judge, or fail. The attempt is driven by single steps or by ticks of a run; it can
be paused, taken back step by step, and reset.

An attempt ends as soon as its last instruction is done: the session looks at the place reached in
the program and does not wait for the machine to leave it.
-/
namespace SeatMachine

/-- Where an attempt stands. -/
inductive Status where
  /-- Nothing has been done yet. -/
  | ready
  | running
  | paused
  /-- Over, by completion or by a soft fault, and judged. -/
  | finished
  /-- Failed by a hard fault. -/
  | faulted
deriving DecidableEq, Repr

/-- How an attempt ended. -/
inductive Ending where
  | finished (verdict : Verdict)
  | faulted (fault : Fault)
deriving DecidableEq, Repr

/-- What came of a single step or a tick. -/
inductive StepReply where
  /-- The step was done, and there is more to do. -/
  | advanced
  /-- The attempt is over. -/
  | ended (ending : Ending)
  /-- The step was refused because a run is active. -/
  | busy
deriving DecidableEq, Repr

/-- Receives completions. What it answers is of no consequence to the session. -/
structure Sink where
  accept : Completion → Except String Unit

/-- An attempt at a challenge. -/
structure Session where
  challenge : Challenge
  program : Program
  machine : Machine
  policy : Policy := .boundary
  sink : Option Sink := none
  historyLimit : Option Nat := none
  status : Status := .ready
  /-- The hard fault that ended the attempt. -/
  lastFault : Option Fault := none
  /-- The verdict on the attempt that is over. -/
  verdict : Option Verdict := none
  switches : Switchboard := .start
  /-- A single step was done since the last reset. -/
  stepped : Bool := false
  /-- A run was started since the last reset. -/
  ran : Bool := false
  /-- The completions that were given to the sink, oldest first. -/
  completions : List Completion := []

namespace Session

/-! ## Setting up -/

def new (challenge : Challenge) (program : Program) : Session where
  challenge
  program
  machine := .start challenge.initialArray program none

/-- Starts the attempt over. A switch that was thrown is replaced. -/
def reset (s : Session) : Session :=
  { s with
    machine := .start s.challenge.initialArray s.program s.historyLimit
    status := .ready
    lastFault := none
    verdict := none
    switches := if s.switches.isPresentThrown then s.switches.renew else s.switches
    stepped := false
    ran := false }

def withPolicy (s : Session) (policy : Policy) : Session :=
  { s with policy }

/-- The session with a limit on its history, from the start. -/
def withHistoryLimit (s : Session) (limit : Nat) : Session :=
  { s with historyLimit := some limit }.reset

def withSink (s : Session) (sink : Sink) : Session :=
  { s with sink := some sink }

/-! ## Looking -/

/-- How the attempt was driven since the last reset. -/
def drive? (s : Session) : Option Drive :=
  Drive.of? s.stepped s.ran

/-- The verdict on the present state. -/
def judge (s : Session) : Verdict :=
  s.challenge.judge s.machine.toSnapshot

/-- How the attempt ended, if it has. -/
def ending? (s : Session) : Option Ending :=
  match s.status with
  | .finished => s.verdict.map .finished
  | .faulted => s.lastFault.map .faulted
  | _ => none

/-- The handle of the switch in place. -/
def pauseHandle (s : Session) : Handle :=
  s.switches.present

/-! ## Ending -/

/-- Gives a completion to the sink, if there is one. -/
def report (s : Session) (stepCount : UInt64) : Session :=
  match s.sink with
  | none => s
  | some sink =>
    let completion : Completion :=
      { challengeId := s.challenge.id
        stepCount
        instructionCount := s.program.instructionCount
        drive := s.drive?.getD .step }
    match sink.accept completion with
    | .ok () => { s with completions := s.completions ++ [completion] }
    | .error _ => { s with completions := s.completions ++ [completion] }

/-- Ends the attempt and judges it; a success is reported. -/
def finish (s : Session) : StepReply × Session :=
  let verdict := s.judge
  let judged := { s with status := .finished, verdict := some verdict }
  (.ended (.finished verdict), if verdict.success then judged.report verdict.stepCount else judged)

/-! ## Driving -/

/-- Does one step of the machine and decides what it means. -/
def advance (s : Session) : StepReply × Session :=
  let result := s.machine.step
  let outcome := result.1
  let s := { s with machine := result.2 }
  if outcome.isCompleted || (outcome.isSuccess && decide (s.program.length ≤ s.machine.currentLine))
  then s.finish
  else match outcome.fault? with
    | none =>
      (.advanced,
        { s with
          lastFault := none
          status := if s.status = .running then .running else .paused })
    | some fault =>
      match s.policy fault with
      | .soft => s.finish
      | .hard =>
        (.ended (.faulted fault), { s with status := .faulted, lastFault := some fault })

/-- A single step. It is refused while a run is active, and an attempt that is over stays as it
is. -/
def step (s : Session) : StepReply × Session :=
  if s.status = .running then (.busy, s)
  else match s.ending? with
    | some ending => (.ended ending, s)
    | none => { s with stepped := true }.advance

/-- Starts a run. An attempt that is over stays as it is. -/
def start (s : Session) : Session :=
  match s.ending? with
  | some _ => s
  | none => { s with ran := true, status := .running }

/-- One tick of the timer: a step if a run is active. -/
def tick (s : Session) : Option StepReply × Session :=
  if s.status = .running then
    let result := s.advance
    (some result.1, result.2)
  else (none, s)

/-- Stops the active run. All handles so far are thrown; later ones belong to the next run. -/
def pause (s : Session) : Session :=
  { s with
    switches := (s.switches.throw s.switches.present).renew
    status := if s.status = .running then .paused else s.status }

def cancel (s : Session) (handle : Handle) : Session :=
  { s with switches := s.switches.throw handle }

/-- Takes the last step back. Returns whether there was one to take back. -/
def rewind (s : Session) : Bool × Session :=
  match s.machine.rewind? with
  | none => (false, s)
  | some machine =>
    (true,
      { s with
        machine
        lastFault := none
        verdict := none
        status := if s.status = .ready then .ready else .paused })

end Session

end SeatMachine
