import SeatMachine.Command.Execution
import Std.Time.DateTime.Timestamp
/-!
# The program

The outer layer: it looks at the files that a command names, lets the command work on them, writes
the ledger back and prints the report. A run on a timer waits here, one alarm at a time.
-/
namespace SeatMachine.Shell

/-! ## Pages -/

/-- What is printed when help is asked for, or when the arguments are no command. -/
def usageText : String :=
  Report.lines
    [ "Run seat-array programs against challenges",
      "",
      "Usage:",
      "  run <PROGRAM> [--challenge <ID> | --challenge-file <FILE>] [--interval-ms <N>]",
      "      [--history-limit <N>] [--progress <FILE>] [--step-limit <N>]",
      "  trace <PROGRAM> [--challenge <ID> | --challenge-file <FILE>] [--step-limit <N>]",
      "  validate <PROGRAM> [--challenge <ID> | --challenge-file <FILE>] [--progress <FILE>]",
      "      [--step-limit <N>]",
      "  challenges [--json] [--progress <FILE>]" ]

/-! ## Files -/

/-- The ledger file that a command may write. -/
def progress? : Command → Option String
  | .run _ _ _ progress _ => progress
  | .trace _ _ => none
  | .validate _ progress _ => progress
  | .challenges _ progress => progress

def attemptPaths (attempt : Command.Attempt) : List String :=
  attempt.program :: attempt.challengeFile.toList

/-- The files that a command names. -/
def paths (command : Command) : List String :=
  let attempt := match command with
    | .run attempt _ _ _ _ => attemptPaths attempt
    | .trace attempt _ => attemptPaths attempt
    | .validate attempt _ _ => attemptPaths attempt
    | .challenges _ _ => []
  attempt ++ (progress? command).toList

def pathText (path : Path) : String :=
  (if path.isAbsolute then "/" else "") ++ String.intercalate "/" path.names

/-- The paths that lead to a path, from the outside in, the path itself included. -/
def ways (path : Path) : List Path :=
  (List.range path.names.length).map fun n =>
    { path with names := path.names.take (n + 1), endsInSlash := false }

def look (path : String) : IO (Option Folder.Node) := do
  try
    if ← (← IO.FS.realPath path).isDir then return some .directory
    return some (.file (← IO.FS.readBinFile path))
  catch
    | .noFileOrDirectory _ _ _ => return none
    | .permissionDenied _ code details => return some (.closed s!"{details} (os error {code})")
    | e => return some (.closed (toString e))

/-- Adds what stands at a path, and on the way to it, to a folder. -/
def observe (folder : Folder) (path : String) : IO Folder :=
  match Path.ofString path with
  | .error _ => return folder
  | .ok path =>
    (ways path).foldlM (fun folder way => do
      match folder.locate way with
      | .error _ => return folder
      | .ok place =>
        match ← look (pathText way) with
        | some node => return folder.put place node
        | none => return folder) folder

/-- Writes the ledger file if a command changed it. A file that cannot be written stays as it is. -/
def writeBack (command : Command) (before after : Folder) : IO Unit := do
  match progress? command with
  | none => return
  | some path =>
    match before.readText path, after.readText path with
    | .ok old, .ok new => if old != new then write path new
    | .error _, .ok new => write path new
    | _, .error _ => return
where
  write (path text : String) : IO Unit := do
    try IO.FS.writeFile path text catch _ => return

/-! ## Time -/

/-- Milliseconds since the start of 1970. -/
def now : IO UInt64 := do
  return UInt64.ofNat (← Std.Time.Timestamp.now).toMillisecondsSinceUnixEpoch.toInt.toNat

def wait (milliseconds : Nat) : IO Unit := do
  for _ in [0 : milliseconds / 1000000000] do
    IO.sleep 1000000000
  IO.sleep (UInt32.ofNat (milliseconds % 1000000000))

/-- Runs a session on a timer until it is over. -/
partial def runTimed (interval : Nat) (s : Session) : IO (RunReply × Session) := do
  if s.start.ending?.isNone then wait interval
  match s.run interval none 1 with
  | (some reply, s) => return (reply, s)
  | (none, s) => runTimed interval s

/-! ## Commands -/

/-- Executes a command. Only a run on a timer needs alarms, and it waits for them here. -/
def execute (folder : Folder) (command : Command) : IO (Report × Folder) := do
  match command with
  | .run attempt (interval + 1) historyLimit progress _ =>
    match Command.prepare folder attempt historyLimit with
    | .error report => return (report, folder)
    | .ok session =>
      let (reply, s) ← runTimed (interval + 1) session
      return Command.conclude folder progress (← now) Command.runLines reply s
  | command => return (command.execute folder (← now) 0).getD (.inputError "", folder)

/-- Executes a command on the files around it, prints its report and returns its exit code. -/
def perform (command : Command) : IO UInt32 := do
  let before ← (paths command).foldlM observe .empty
  let (report, after) ← execute before command
  writeBack command before after
  (← IO.getStdout).putStr report.out
  (← IO.getStderr).putStr report.err
  return report.exit.code

end SeatMachine.Shell

/-- Reads the command line and does what it asks for. -/
def main (arguments : List String) : IO UInt32 := do
  match SeatMachine.Command.ofArguments arguments with
  | .ok command => SeatMachine.Shell.perform command
  | .error .help =>
    (← IO.getStdout).putStr SeatMachine.Shell.usageText
    return 0
  | .error .usage =>
    (← IO.getStderr).putStr SeatMachine.Shell.usageText
    return SeatMachine.Exit.input.code
