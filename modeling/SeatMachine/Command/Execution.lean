import SeatMachine.Challenge.Catalog
import SeatMachine.Command.Arguments
import SeatMachine.Command.Listing
import SeatMachine.Command.Trace
import SeatMachine.Ledger.Storage
import SeatMachine.Session.Run
/-!
# Executing commands

A command works on a folder: it reads the program first and then the challenge, and the only file
it writes is the ledger of a completed challenge. A ledger that cannot be used does not change what
the command reports.
-/
namespace SeatMachine.Command

/-! ## Loading -/

/-- Reads the text of a file that the command needs. -/
def readInput (folder : Folder) (path : String) : Except Report String :=
  match folder.readText path with
  | .ok text => .ok text
  | .error fault => .error (.inputError ("cannot read '" ++ path ++ "': " ++ fault.message))

def loadProgram (folder : Folder) (path : String) : Except Report Program := do
  let text ← readInput folder path
  match Program.load text with
  | .ok program => .ok program
  | .error e => .error (.inputError e.message)

/-- Loads the challenge of an attempt, from the catalog or from its file. -/
def loadChallenge (folder : Folder) (attempt : Attempt) : Except Report Challenge :=
  match attempt.challengeId, attempt.challengeFile with
  | some id, _ =>
    match Catalog.find id with
    | .ok c => .ok c
    | .error e => .error (.inputError e.message)
  | none, some path => do
    let text ← readInput folder path
    match Challenge.load text with
    | .ok c => .ok c
    | .error e => .error (.inputError e.message)
  | none, none =>
    .error (.inputError "a challenge is required (--challenge <ID> or --challenge-file <FILE>)")

def listener : Sink :=
  ⟨fun _ => .ok ()⟩

/-- Sets up the session of an attempt. -/
def prepare (folder : Folder) (attempt : Attempt) (historyLimit : Option Nat) :
    Except Report Session := do
  let program ← loadProgram folder attempt.program
  let challenge ← loadChallenge folder attempt
  let session := (Session.new challenge program).withSink listener
  return match historyLimit with
    | some limit => session.withHistoryLimit limit
    | none => session

/-! ## Reporting -/

def seatsText (seats : List Int64) : String :=
  "[" ++ String.intercalate ", " (seats.map fun seat => toString seat.toInt) ++ "]"

/-- The exit of an attempt that is over. -/
def verdictExit (verdict : Verdict) : Exit :=
  if verdict.success then .success else .validation

/-- The report of an attempt, which prints `lines` if the attempt is over and judged. -/
def report (lines : Verdict → Session → List String) (reply : RunReply) (s : Session) : Report :=
  match reply with
  | .ended (.finished verdict) => .output (verdictExit verdict) (lines verdict s)
  | .ended (.faulted fault) => .failure .runtime ("runtime error: " ++ fault.message)
  | .paused =>
    .failure .runtime s!"error: stopped after {s.machine.stepCount.toNat} steps without finishing"

def runLines (verdict : Verdict) (s : Session) : List String :=
  [verdict.message, s!"steps: {verdict.stepCount.toNat}", "array: " ++ seatsText s.machine.array]

def validateLines (verdict : Verdict) (_ : Session) : List String :=
  [verdict.toJson.compact]

/-- Records the completions of a session in the ledger file. -/
def recordAll (folder : Folder) (progress : Option String) (time : UInt64)
    (completions : List Completion) : Folder :=
  completions.foldl (fun folder completion =>
    match Ledger.recordCompletion folder progress completion time with
    | .ok folder => folder
    | .error _ => folder) folder

/-- The report of an attempt and the folder after it. -/
def conclude (folder : Folder) (progress : Option String) (time : UInt64)
    (lines : Verdict → Session → List String) (reply : RunReply) (s : Session) : Report × Folder :=
  (report lines reply s, recordAll folder progress time s.completions)

/-! ## The commands -/

/-- Runs an attempt without a timer. -/
def attemptImmediately (folder : Folder) (time : UInt64) (attempt : Attempt)
    (historyLimit : Option Nat) (progress : Option String) (stepLimit : Nat)
    (lines : Verdict → Session → List String) : Report × Folder :=
  match prepare folder attempt historyLimit with
  | .error report => (report, folder)
  | .ok session =>
    let result := session.runImmediately stepLimit
    conclude folder progress time lines result.1 result.2

/-- Runs an attempt on a timer that may go off `alarms` times. -/
def attemptTimed (folder : Folder) (time : UInt64) (attempt : Attempt) (interval : Nat)
    (historyLimit : Option Nat) (progress : Option String) (alarms : Nat) :
    Option (Report × Folder) :=
  match prepare folder attempt historyLimit with
  | .error report => some (report, folder)
  | .ok session =>
    match session.run interval none alarms with
    | (some reply, s) => some (conclude folder progress time runLines reply s)
    | (none, _) => none

def traceAttempt (folder : Folder) (attempt : Attempt) (stepLimit : Nat) : Report :=
  match loadProgram folder attempt.program with
  | .error report => report
  | .ok program =>
    match loadChallenge folder attempt with
    | .error report => report
    | .ok challenge =>
      let result := Trace.collect stepLimit (.start challenge.initialArray program none)
      Trace.report stepLimit result.1 result.2

def list (folder : Folder) (json : Bool) (progress : Option String) : Report :=
  if json then
    .output .success [(Json.array (Catalog.challenges.map Challenge.toJson)).compact]
  else
    let ledger := match progress with
      | some path => Ledger.load folder path
      | none => .ok .empty
    match ledger with
    | .error e => .inputError e.message
    | .ok ledger => .output .success (Catalog.challenges.map (Listing.line ledger))

/-- Executes a command at some time. A run on a timer need not end; there is no answer if it is
still going after `alarms` alarms. -/
def execute (folder : Folder) (time : UInt64) (alarms : Nat) : Command → Option (Report × Folder)
  | .run attempt 0 historyLimit progress stepLimit =>
    some (attemptImmediately folder time attempt historyLimit progress stepLimit runLines)
  | .run attempt (interval + 1) historyLimit progress _ =>
    attemptTimed folder time attempt (interval + 1) historyLimit progress alarms
  | .trace attempt stepLimit => some (traceAttempt folder attempt stepLimit, folder)
  | .validate attempt progress stepLimit =>
    some (attemptImmediately folder time attempt none progress stepLimit validateLines)
  | .challenges json progress => some (list folder json progress, folder)

end SeatMachine.Command
