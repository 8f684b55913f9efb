import SeatMachine.Session.Basic
/-!
# Runs

A run steps an attempt on a timer until the attempt is over or its switch is thrown. The timer goes
off at every multiple of the interval after the call; each time the switch is looked at first, so a
pause never interrupts a step half way.

Time is counted in milliseconds and moves only with the timer. A run need not end, so it is given
the number of times the timer may go off; no answer means that it was still going then.
-/
namespace SeatMachine

/-- Why a run returned. -/
inductive RunReply where
  | paused
  | ended (ending : Ending)
deriving DecidableEq, Repr

namespace Session

/-! ## Timed runs -/

/-- The switch is thrown from outside at some time: it is seen thrown after that time. -/
def isDue (cancelAfter : Option Nat) (time : Nat) : Bool :=
  match cancelAfter with
  | none => false
  | some moment => decide (moment < time)

/-- Waits for the timer, which goes off first at `time` and then every `interval`. -/
def await (interval : Nat) (cancelAfter : Option Nat) :
    (alarms : Nat) → (time : Nat) → Session → Option RunReply × Session
  | 0, _, s => (none, s)
  | alarms + 1, time, s =>
    if s.switches.isPresentThrown || isDue cancelAfter time then (some .paused, s.pause)
    else match s.tick with
      | (some .advanced, s) => await interval cancelAfter alarms (time + interval) s
      | (some (.ended ending), s) => (some (.ended ending), s)
      | (some .busy, s) => (some .paused, s)
      | (none, s) => (some .paused, s)

/-- Runs on a timer; an interval of zero counts as one millisecond. If `cancelAfter` is given, the
switch in place is thrown that long after the call, unless the run has returned by then. -/
def run (s : Session) (interval : Nat) (cancelAfter : Option Nat) (alarms : Nat) :
    Option RunReply × Session :=
  let s := s.start
  match s.ending? with
  | some ending => (some (.ended ending), s)
  | none => await (max interval 1) cancelAfter alarms (max interval 1) s

/-! ## Immediate runs -/

/-- Ticks until one does not advance, at most `limit` times, after `calls` ticks of which the last
gave `last`. Returns the number of ticks and what came of the last. -/
def ticksAfter (calls : Nat) (last : Option StepReply) :
    (limit : Nat) → Session → Nat × Option StepReply × Session
  | 0, s => (calls, last, s)
  | limit + 1, s =>
    match s.tick with
    | (some .advanced, s) => ticksAfter (calls + 1) (some .advanced) limit s
    | (reply, s) => (calls + 1, reply, s)

/-- Ticks until one does not advance, at most `limit` times. -/
def ticks (s : Session) (limit : Nat) : Nat × Option StepReply × Session :=
  ticksAfter 0 none limit s

/-- Runs without a timer for at most `limit` steps, and pauses if the attempt is not over then. -/
def runImmediately (s : Session) (limit : Nat) : RunReply × Session :=
  match (s.start.ticks limit).2 with
  | (some (.ended ending), s) => (.ended ending, s)
  | (_, s) => (.paused, s.pause)

end Session

end SeatMachine
