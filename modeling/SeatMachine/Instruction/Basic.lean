/-!
# Instructions

The machine has a row of seats, two cursors into it, and a hand. An instruction is either a single
operation or a conditional with a body of further instructions, which is entered when the hand
compares with the seat under a cursor as asked.
-/
namespace SeatMachine

/-- One of the two cursors into the row of seats. -/
inductive Cursor where
  | moco
  | choco
deriving DecidableEq, Repr

namespace Cursor

/-- Both cursors, in the order in which they are listed. -/
def all : List Cursor :=
  [.moco, .choco]

def name : Cursor → String
  | .moco => "MOCO"
  | .choco => "CHOCO"

end Cursor

/-- How a conditional compares the hand with a seat. -/
inductive Comparison where
  | greater
  | less
  | equal
  | notEqual
deriving DecidableEq, Repr

namespace Comparison

/-- The hand stands in this relation to the seat. -/
def holds (comparison : Comparison) (hand seat : Int64) : Bool :=
  match comparison with
  | .greater => decide (seat < hand)
  | .less => decide (hand < seat)
  | .equal => hand == seat
  | .notEqual => hand != seat

section

variable {hand seat : Int64}

-- Words are compared as the integers that they stand for, negative ones included.

@[simp]
theorem holds_greater_iff : greater.holds hand seat = true ↔ seat.toInt < hand.toInt := by
  simp [holds, Int64.lt_iff_toInt_lt]

@[simp]
theorem holds_less_iff : less.holds hand seat = true ↔ hand.toInt < seat.toInt := by
  simp [holds, Int64.lt_iff_toInt_lt]

@[simp]
theorem holds_equal_iff : equal.holds hand seat = true ↔ hand.toInt = seat.toInt := by
  simp [holds, Int64.toInt_inj]

@[simp]
theorem holds_notEqual_iff : notEqual.holds hand seat = true ↔ hand.toInt ≠ seat.toInt := by
  simp [holds, Int64.toInt_inj]

end

end Comparison

/-- An instruction without a body. -/
inductive Operation where
  /-- Move the cursor one seat to the left. -/
  | moveLeft (target : Cursor)
  /-- Move the cursor one seat to the right. -/
  | moveRight (target : Cursor)
  /-- Move the cursor to the last seat. -/
  | moveToEnd (target : Cursor)
  /-- Place the cursor on a seat by its index. -/
  | setPointer (target : Cursor) (index : Int64)
  /-- Overwrite the seat under the cursor with a value, which must not be negative. -/
  | setValue (target : Cursor) (value : Int64)
  /-- Copy the seat under the cursor into the hand. -/
  | pick (target : Cursor)
  /-- Copy the hand into the seat under the cursor. -/
  | put (target : Cursor)
  /-- Exchange the seats under the two cursors. -/
  | swap
  /-- Exchange the seat under the cursor with its right neighbour. -/
  | swapWithNext (target : Cursor)
  /-- Add one to the seat under the cursor. -/
  | increment (target : Cursor)
  /-- Subtract one from the seat under the cursor. -/
  | decrement (target : Cursor)
  /-- Jump when the cursor is on the last seat. -/
  | ifEnd (target : Cursor) (label : String)
  /-- Jump when both cursors are on the same seat. -/
  | ifMeet (label : String)
  /-- Jump to a label of the top-level program. -/
  | jump (label : String)
  /-- A named place in the program. -/
  | label (name : String)
  /-- Do nothing for one step. -/
  | wait
  /-- Anything that is not part of the instruction set. -/
  | unknown
deriving DecidableEq, Repr

/-- The cursor an operation works on, if it works on one. -/
def Operation.target? : Operation → Option Cursor
  | .moveLeft t | .moveRight t | .moveToEnd t | .setPointer t _ | .setValue t _ | .pick t | .put t
  | .swapWithNext t | .increment t | .decrement t | .ifEnd t _ => some t
  | .swap | .ifMeet _ | .jump _ | .label _ | .wait | .unknown => none

/-- An instruction: an operation, or a conditional with a body. -/
inductive Instruction where
  | op (operation : Operation)
  | branch (comparison : Comparison) (target : Cursor) (body : List Instruction)
deriving Repr

/-- A list of instructions: the program itself or the body of a conditional. -/
abbrev Block := List Instruction

namespace Instruction

/-! ## Equality -/

mutual

def decEq : (a b : Instruction) → Decidable (a = b)
  | .op x, .op y => if h : x = y then .isTrue (by rw [h]) else .isFalse (by simp [h])
  | .op _, .branch _ _ _ => .isFalse (by simp)
  | .branch _ _ _, .op _ => .isFalse (by simp)
  | .branch c t xs, .branch d u ys =>
    if h : c = d ∧ t = u then
      match decEqBlock xs ys with
      | .isTrue hb => .isTrue (by rw [h.1, h.2, hb])
      | .isFalse hb => .isFalse (by simp [hb])
    else .isFalse (fun e => by injection e with hc ht; exact h ⟨hc, ht⟩)

def decEqBlock : (xs ys : Block) → Decidable (xs = ys)
  | [], [] => .isTrue rfl
  | [], _ :: _ => .isFalse (by simp)
  | _ :: _, [] => .isFalse (by simp)
  | x :: xs, y :: ys =>
    match decEq x y with
    | .isFalse h => .isFalse (by simp [h])
    | .isTrue h =>
      match decEqBlock xs ys with
      | .isTrue hs => .isTrue (by rw [h, hs])
      | .isFalse hs => .isFalse (by simp [hs])

end

instance : DecidableEq Instruction :=
  decEq

/-! ## Cursor and size -/

def target? : Instruction → Option Cursor
  | .op operation => operation.target?
  | .branch _ target _ => some target

def isLabel (name : String) : Instruction → Bool
  | .op (.label n) => n == name
  | _ => false

def labelName? : Instruction → Option String
  | .op (.label name) => some name
  | _ => none

mutual

/-- The number of instructions, those in bodies included. -/
def count : Instruction → Nat
  | .op _ => 1
  | .branch _ _ body => 1 + countBlock body
termination_by structural i => i

/-- The number of instructions in a block, those in bodies included. -/
def countBlock : Block → Nat
  | [] => 0
  | i :: block => i.count + countBlock block
termination_by structural block => block

end

end Instruction

end SeatMachine
