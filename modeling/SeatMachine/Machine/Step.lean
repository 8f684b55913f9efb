import SeatMachine.Machine.Basic
/-!
# Steps

One step runs the current instruction of the innermost block, or leaves a block that is at its end.
Leaving a body costs a step, as entering it did; leaving the program itself costs none and completes
the run. A step that fails changes nothing.

`Snapshot.step` does this on snapshots; `Machine.step` also puts the snapshot before the step into
the history, whether the step fails or not, so that `Machine.rewind?` can take it back.
-/
namespace SeatMachine

/-- How a step ended. -/
inductive Outcome where
  /-- The step was done, and there is more to run. -/
  | advanced
  /-- The program was left at its end. -/
  | completed
  /-- The step could not be done. -/
  | failed (fault : Fault)
deriving DecidableEq, Repr

namespace Outcome

/-- The step was done. -/
def isSuccess : Outcome → Bool
  | .failed _ => false
  | _ => true

/-- Nothing is left to run. -/
def isCompleted : Outcome → Bool
  | .completed | .failed .programCompleted => true
  | _ => false

/-- The fault of a step that could not be done. -/
def fault? : Outcome → Option Fault
  | .failed fault => some fault
  | _ => none

end Outcome

namespace Snapshot

/-! ## Operations

Each operation checks all that it needs before it changes anything. -/

def moveLeft (s : Snapshot) (target : Cursor) : Except Fault Snapshot := do
  let _ ← s.under target
  match s.cursor target with
  | 0 => .error (.cannotMove target 0)
  | seat + 1 => .ok (s.setCursor target seat).advance

def moveRight (s : Snapshot) (target : Cursor) : Except Fault Snapshot := do
  let _ ← s.under target
  if s.cursor target + 1 < s.array.length then
    .ok (s.setCursor target (s.cursor target + 1)).advance
  else .error (.cannotMove target (s.cursor target))

def moveToEnd (s : Snapshot) (target : Cursor) : Except Fault Snapshot :=
  match s.array.length with
  | 0 => .error (.pointerOutOfRange target (s.cursor target) 0)
  | last + 1 => .ok (s.setCursor target last).advance

def setPointer (s : Snapshot) (target : Cursor) (index : Int64) : Except Fault Snapshot :=
  if 0 ≤ index.toInt ∧ index.toInt < s.array.length then
    .ok (s.setCursor target index.toInt.toNat).advance
  else .error (.indexOutOfRange index s.array.length)

def setValue (s : Snapshot) (target : Cursor) (value : Int64) : Except Fault Snapshot :=
  if value < 0 then .error (.negativeValue value s.bodyDepth s.pc)
  else do
    let _ ← s.under target
    return (s.setUnder target value).advance

def pick (s : Snapshot) (target : Cursor) : Except Fault Snapshot := do
  let value ← s.under target
  return { s with hand := some value }.advance

/-- Copies the hand into the seat under a cursor. The hand keeps its value. -/
def put (s : Snapshot) (target : Cursor) : Except Fault Snapshot := do
  let _ ← s.under target
  let value ← s.held
  return (s.setUnder target value).advance

def swap (s : Snapshot) : Except Fault Snapshot := do
  let moco ← s.under .moco
  let choco ← s.under .choco
  return ((s.setUnder .moco choco).setUnder .choco moco).advance

def swapWithNext (s : Snapshot) (target : Cursor) : Except Fault Snapshot :=
  match s.array[s.cursor target]?, s.array[s.cursor target + 1]? with
  | some here, some next =>
    .ok { s with
      array := (s.array.set (s.cursor target) next).set (s.cursor target + 1) here }.advance
  | _, _ => .error (.cannotSwapWithNext (s.cursor target) s.array.length)

/-- Replaces the seat under a cursor. -/
def adjust (s : Snapshot) (target : Cursor) (f : Int64 → Int64) : Except Fault Snapshot := do
  let value ← s.under target
  return (s.setUnder target (f value)).advance

/-- Leaves all blocks and goes on at a label of the program. -/
def jump (s : Snapshot) (program : Program) (label : String) : Except Fault Snapshot :=
  match program.resolve label with
  | some place => .ok { s with stack := [⟨program.block, place⟩] }
  | none => .error (.labelNotFound label s.bodyDepth s.pc)

/-- Jumps if `taken`, and goes on with the next instruction otherwise. -/
def jumpIf (s : Snapshot) (program : Program) (taken : Bool) (label : String) :
    Except Fault Snapshot :=
  if taken then s.jump program label else .ok s.advance

def isAtEnd (s : Snapshot) (target : Cursor) : Bool :=
  s.cursor target + 1 == s.array.length

def perform (s : Snapshot) (program : Program) : Operation → Except Fault Snapshot
  | .moveLeft target => s.moveLeft target
  | .moveRight target => s.moveRight target
  | .moveToEnd target => s.moveToEnd target
  | .setPointer target index => s.setPointer target index
  | .setValue target value => s.setValue target value
  | .pick target => s.pick target
  | .put target => s.put target
  | .swap => s.swap
  | .swapWithNext target => s.swapWithNext target
  | .increment target => s.adjust target (· + 1)
  | .decrement target => s.adjust target (· - 1)
  | .ifEnd target label => s.jumpIf program (s.isAtEnd target) label
  | .ifMeet label => s.jumpIf program (s.moco == s.choco) label
  | .jump label => s.jump program label
  | .label _ => .ok s.advance
  | .wait => .ok s.advance
  | .unknown => .error (.unknownInstruction s.bodyDepth s.pc)

/-- Enters the body of a conditional if the comparison holds, and passes over it otherwise. The
place in the outer block moves on only when the body is left. -/
def branch (s : Snapshot) (comparison : Comparison) (target : Cursor) (body : Block) :
    Except Fault Snapshot := do
  let hand ← s.held
  let seat ← s.under target
  return if comparison.holds hand seat then s.enter body else s.advance

def run (s : Snapshot) (program : Program) : Instruction → Except Fault Snapshot
  | .op operation => s.perform program operation
  | .branch comparison target body => s.branch comparison target body

/-! ## One step -/

def leave (s : Snapshot) : List Frame → Outcome × Snapshot
  | [] => (.completed, { s with stack := [] })
  | outer :: rest => (.advanced, { s with stack := outer.next :: rest }.countStep)

def step (program : Program) (s : Snapshot) : Outcome × Snapshot :=
  match s.stack with
  | [] => (.failed .programCompleted, s)
  | frame :: outer =>
    match frame.current? with
    | none => s.leave outer
    | some instruction =>
      match s.run program instruction with
      | .ok s' => (.advanced, s'.countStep)
      | .error fault => (.failed fault, s)

/-- The current instruction is to exchange the seat with the greatest possible number with its
neighbour. Counting on from there leads back to the first seat; if the row has one, the exchange
reaches outside the row, and the step has no result. -/
def isOverrun (s : Snapshot) : Bool :=
  match s.current? with
  | some (.op (.swapWithNext target)) => s.cursor target == wordMax && !s.array.isEmpty
  | _ => false

end Snapshot

namespace Machine

/-- Does one step. The history gets the snapshot before the step, whether the step fails or not. -/
def step (m : Machine) : Outcome × Machine :=
  let result := m.toSnapshot.step m.program
  (result.1, { m with toSnapshot := result.2, history := m.history.push m.toSnapshot })

/-- Does one step of a machine in any state, also one that no run leads to. -/
def step? (m : Machine) : Option (Outcome × Machine) :=
  if m.isOverrun then none else some m.step

/-- Takes the last step back; none if there is no snapshot to go back to. There is no redo. -/
def rewind? (m : Machine) : Option Machine :=
  match m.history.pop? with
  | none => none
  | some (snapshot, history) => some { m with toSnapshot := snapshot, history }

/-! ## Equations -/

@[simp]
theorem program_step (m : Machine) : m.step.2.program = m.program := rfl

@[simp]
theorem toSnapshot_step (m : Machine) : m.step.2.toSnapshot = (m.toSnapshot.step m.program).2 := rfl

@[simp]
theorem history_step (m : Machine) : m.step.2.history = m.history.push m.toSnapshot := rfl

@[simp]
theorem fst_step (m : Machine) : m.step.1 = (m.toSnapshot.step m.program).1 := rfl

/-- A step has a result unless a cursor is at the greatest possible position. -/
theorem step?_of_lt {m : Machine} (hmoco : m.moco < wordMax) (hchoco : m.choco < wordMax) :
    m.step? = some m.step := by
  have hcursor : ∀ target, m.cursor target ≠ wordMax := by
    intro target
    cases target with
    | moco => exact Nat.ne_of_lt hmoco
    | choco => exact Nat.ne_of_lt hchoco
  have hnot : m.isOverrun = false := by
    unfold Snapshot.isOverrun
    split
    · simp [hcursor]
    · rfl
  simp [step?, hnot]

end Machine

end SeatMachine
