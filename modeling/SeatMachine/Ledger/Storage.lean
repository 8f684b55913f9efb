import SeatMachine.Completion
import SeatMachine.Folder
import SeatMachine.Ledger.Record
/-!
# Keeping the ledger

A ledger is kept in a file. A missing file is an empty ledger; a file that is not a ledger is an
error and is left as it is. A completion is recorded by reading the file, recording the completion
and writing the file again; a challenge without an id is not recorded.
-/
namespace SeatMachine

/-- Why a ledger file could not be used. -/
inductive LedgerError where
  | read (path : String) (fault : FileFault)
  | write (path : String) (fault : FileFault)
  /-- The file does not hold a ledger. -/
  | json (path : String)
deriving DecidableEq, Repr

def LedgerError.message : LedgerError → String
  | .read path fault => "cannot read progress file '" ++ path ++ "': " ++ fault.message
  | .write path fault => "cannot write progress file '" ++ path ++ "': " ++ fault.message
  | .json path => "invalid progress file '" ++ path ++ "': "

namespace Ledger

def load (folder : Folder) (path : String) : Except LedgerError Ledger :=
  match folder.readText path with
  | .error .notFound => .ok .empty
  | .error fault => .error (.read path fault)
  | .ok text =>
    match read? text with
    | some ledger => .ok ledger
    | none => .error (.json path)

def save (l : Ledger) (folder : Folder) (path : String) : Except LedgerError Folder :=
  match folder.writeText path l.write with
  | .ok folder => .ok folder
  | .error fault => .error (.write path fault)

/-- Records a completion at some time in the ledger file, if there is one. -/
def recordCompletion (folder : Folder) (path : Option String) (completion : Completion)
    (time : UInt64) : Except LedgerError Folder :=
  if completion.challengeId == "" then .ok folder
  else match path with
    | none => .ok folder
    | some path =>
      match load folder path with
      | .error e => .error e
      | .ok ledger =>
        (ledger.record completion.challengeId completion.stepCount time).save folder path

end Ledger

end SeatMachine
