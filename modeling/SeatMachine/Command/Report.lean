/-!
# Reports

What a command leaves behind: how it exits, and what it prints.
-/
namespace SeatMachine

/-- How a command exits. -/
inductive Exit where
  | success
  /-- Something could not be read or loaded. -/
  | input
  /-- The challenge was not solved. -/
  | validation
  /-- The program failed or did not finish. -/
  | runtime
deriving DecidableEq, Repr

def Exit.code : Exit → UInt32
  | .success => 0
  | .input => 1
  | .validation => 2
  | .runtime => 3

/-- How a command exits, and what it prints on its two outputs. -/
structure Report where
  exit : Exit
  out : String
  err : String
deriving DecidableEq, Repr

namespace Report

def lines (texts : List String) : String :=
  String.join (texts.map (· ++ "\n"))

/-- Output lines only. -/
def output (exit : Exit) (texts : List String) : Report :=
  ⟨exit, lines texts, ""⟩

/-- A diagnostic line only. -/
def failure (exit : Exit) (text : String) : Report :=
  ⟨exit, "", lines [text]⟩

/-- Something could not be read or loaded. -/
def inputError (text : String) : Report :=
  failure .input ("error: " ++ text)

end Report

end SeatMachine
