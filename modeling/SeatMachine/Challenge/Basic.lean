/-!
# Challenges

A challenge gives the row of seats to start from, the row to reach, and maybe a budget of steps.
-/
namespace SeatMachine

/-- How hard a challenge is meant to be. -/
inductive Difficulty where
  | easy
  | medium
  | hard
deriving DecidableEq, Repr

namespace Difficulty

def all : List Difficulty :=
  [.easy, .medium, .hard]

/-- The name of a difficulty in a definition. -/
def name : Difficulty → String
  | .easy => "EASY"
  | .medium => "MEDIUM"
  | .hard => "HARD"

/-- The name of a difficulty in a listing. -/
def label : Difficulty → String
  | .easy => "easy"
  | .medium => "medium"
  | .hard => "hard"

end Difficulty

/-- A challenge. What a definition may leave out has its default here. -/
structure Challenge where
  id : String := ""
  title : String := ""
  description : String := ""
  difficulty : Difficulty := .easy
  initialArray : List Int64
  targetArray : List Int64
  /-- The budget of steps for an optimal solution. -/
  maxSteps : Option UInt64 := none
  unlocked : Bool := true
deriving DecidableEq, Repr

namespace Challenge

def withMaxSteps (c : Challenge) (maxSteps : UInt64) : Challenge :=
  { c with maxSteps := some maxSteps }

def withId (c : Challenge) (id : String) : Challenge :=
  { c with id }

end Challenge

end SeatMachine
