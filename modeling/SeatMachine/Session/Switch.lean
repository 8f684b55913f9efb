/-!
# Pause switches

A session hands out handles of a switch; throwing the switch through any of them pauses the run.
A thrown switch stays thrown, so a pause puts a fresh one in its place. All switches that were ever
in place are kept, because handles of them may still be held.
-/
namespace SeatMachine

/-- A handle of a switch: the number of the switch. -/
structure Handle where
  number : Nat
deriving DecidableEq, Repr

/-- All switches so far, oldest first, each with whether it is thrown; and the one in place. -/
structure Switchboard where
  thrown : List Bool
  present : Handle
deriving DecidableEq, Repr

namespace Switchboard

/-- A board with one fresh switch. -/
def start : Switchboard :=
  ⟨[false], ⟨0⟩⟩

def isThrown (board : Switchboard) (handle : Handle) : Bool :=
  board.thrown.getD handle.number false

def isPresentThrown (board : Switchboard) : Bool :=
  board.isThrown board.present

def throw (board : Switchboard) (handle : Handle) : Switchboard :=
  { board with thrown := board.thrown.set handle.number true }

def renew (board : Switchboard) : Switchboard :=
  { thrown := board.thrown ++ [false], present := ⟨board.thrown.length⟩ }

@[simp]
theorem isPresentThrown_renew (board : Switchboard) : board.renew.isPresentThrown = false := by
  simp [renew, isPresentThrown, isThrown]

end Switchboard

end SeatMachine
