import SeatMachine.Fault
import SeatMachine.History
import SeatMachine.Program
/-!
# The machine

A snapshot holds everything that changes from step to step: the row of seats, the two cursors, the
hand, the stack of blocks being run, and the number of steps done. A machine is a snapshot with a
program and the history of the snapshots before it.
-/
namespace SeatMachine

/-! ## Frames -/

/-- A block being run, and the place reached in it. -/
structure Frame where
  block : Block
  pc : Nat
deriving DecidableEq, Repr

namespace Frame

/-- The instruction at the place reached; none at the end of the block. -/
def current? (frame : Frame) : Option Instruction :=
  frame.block[frame.pc]?

def next (frame : Frame) : Frame :=
  { frame with pc := frame.pc + 1 }

end Frame

/-! ## Snapshots -/

/-- Everything that changes from step to step. -/
structure Snapshot where
  /-- The row of seats. -/
  array : List Int64
  moco : Nat := 0
  choco : Nat := 0
  hand : Option Int64 := none
  /-- The blocks being run, innermost first; the last is the program. -/
  stack : List Frame
  /-- The number of steps done, modulo the size of a word. -/
  stepCount : UInt64 := 0
deriving DecidableEq, Repr

namespace Snapshot

def cursor (s : Snapshot) : Cursor → Nat
  | .moco => s.moco
  | .choco => s.choco

def setCursor (s : Snapshot) (target : Cursor) (seat : Nat) : Snapshot :=
  match target with
  | .moco => { s with moco := seat }
  | .choco => { s with choco := seat }

/-- The value of the seat under a cursor. -/
def under (s : Snapshot) (target : Cursor) : Except Fault Int64 :=
  match s.array[s.cursor target]? with
  | some value => .ok value
  | none => .error (.pointerOutOfRange target (s.cursor target) s.array.length)

/-- The snapshot with another value in the seat under a cursor. -/
def setUnder (s : Snapshot) (target : Cursor) (value : Int64) : Snapshot :=
  { s with array := s.array.set (s.cursor target) value }

/-- How many blocks are being run. -/
def depth (s : Snapshot) : Nat :=
  s.stack.length

/-- How many bodies are around the current instruction. -/
def bodyDepth (s : Snapshot) : Nat :=
  s.stack.length - 1

/-- The place reached in the innermost block. -/
def pc (s : Snapshot) : Nat :=
  match s.stack with
  | [] => 0
  | frame :: _ => frame.pc

def held (s : Snapshot) : Except Fault Int64 :=
  match s.hand with
  | some value => .ok value
  | none => .error (.handEmpty s.bodyDepth s.pc)

/-- The instruction that the next step runs, if it runs one. -/
def current? (s : Snapshot) : Option Instruction :=
  s.stack.head?.bind Frame.current?

/-- Nothing is being run any more. -/
def isFinished (s : Snapshot) : Bool :=
  s.stack.isEmpty

/-- The snapshot with the innermost block one place further on. -/
def advance (s : Snapshot) : Snapshot :=
  match s.stack with
  | [] => s
  | frame :: outer => { s with stack := frame.next :: outer }

/-- The snapshot inside a body. -/
def enter (s : Snapshot) (body : Block) : Snapshot :=
  { s with stack := ⟨body, 0⟩ :: s.stack }

/-- The snapshot with one more step done. -/
def countStep (s : Snapshot) : Snapshot :=
  { s with stepCount := s.stepCount + 1 }

/-- The start of a program on a row of seats. -/
def start (array : List Int64) (program : Program) : Snapshot :=
  { array, stack := [⟨program.block, 0⟩] }

end Snapshot

/-! ## Machines -/

/-- A snapshot with a program and a history. -/
structure Machine extends Snapshot where
  history : History Snapshot
  program : Program
deriving DecidableEq

namespace Machine

/-- The machine at the start of a program, with a limit on its history. -/
def start (array : List Int64) (program : Program) (limit : Option Nat) : Machine :=
  { toSnapshot := .start array program, history := .empty limit, program }

/-- The machine with an empty history under a new limit. -/
def withHistoryLimit (m : Machine) (limit : Nat) : Machine :=
  { m with history := .empty (some limit) }

/-- The place reached in the program; its length when nothing is being run any more. -/
def currentLine (m : Machine) : Nat :=
  match m.stack.getLast? with
  | some frame => frame.pc
  | none => m.program.length

end Machine

end SeatMachine
