/-!
# Load errors

Why a program or a challenge could not be loaded.
-/
namespace SeatMachine

/-- The kinds of document that are loaded from JSON. -/
inductive Document where
  | program
  | challenge
deriving DecidableEq, Repr

def Document.name : Document → String
  | .program => "program"
  | .challenge => "challenge"

/-- Why loading failed. -/
inductive LoadError where
  /-- The text is not JSON of the expected shape. -/
  | json (document : Document)
  /-- No built-in challenge has this id. -/
  | unknownChallenge (id : String)
deriving DecidableEq, Repr

def LoadError.message : LoadError → String
  | .json document => "invalid " ++ document.name ++ " JSON: "
  | .unknownChallenge id => "unknown challenge '" ++ id ++ "'"

end SeatMachine
