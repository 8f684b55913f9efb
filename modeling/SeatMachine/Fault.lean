import SeatMachine.Instruction.Record
/-!
# Faults

A step that cannot be done fails with a fault. A fault says what went wrong, belongs to one of six
kinds, and points at an instruction, a cursor or some seats. A policy decides what a fault means
for an attempt: after a soft fault the attempt is over and is judged as it stands, after a hard one
it has failed.
-/
namespace SeatMachine

/-- The greatest number a position can have. -/
def wordMax : Nat :=
  UInt64.size - 1

/-- Why a step failed. `depth` counts the bodies around the instruction at `pc`. -/
inductive Fault where
  /-- A cursor at the edge cannot move on. -/
  | cannotMove (target : Cursor) (seat : Nat)
  /-- A cursor is outside the row. -/
  | pointerOutOfRange (target : Cursor) (seat length : Nat)
  /-- A seat has no right neighbour. -/
  | cannotSwapWithNext (seat length : Nat)
  /-- The hand holds nothing. -/
  | handEmpty (depth pc : Nat)
  /-- No label of the program has this name. -/
  | labelNotFound (label : String) (depth pc : Nat)
  /-- No seat has this index. -/
  | indexOutOfRange (index : Int64) (length : Nat)
  /-- A seat cannot be set to a negative value. -/
  | negativeValue (value : Int64) (depth pc : Nat)
  /-- The instruction is not part of the instruction set. -/
  | unknownInstruction (depth pc : Nat)
  /-- Nothing is left to run. -/
  | programCompleted
deriving DecidableEq, Repr

namespace Fault

/-! ## Kinds -/

inductive Kind where
  | pointerOutOfRange
  | handEmpty
  | labelNotFound
  | arrayIndexOutOfRange
  | unknownInstruction
  | programCompleted
deriving DecidableEq, Repr

def Kind.all : List Kind :=
  [.pointerOutOfRange, .handEmpty, .labelNotFound, .arrayIndexOutOfRange, .unknownInstruction,
    .programCompleted]

def Kind.name : Kind → String
  | .pointerOutOfRange => "POINTER_OUT_OF_RANGE"
  | .handEmpty => "HAND_EMPTY"
  | .labelNotFound => "LABEL_NOT_FOUND"
  | .arrayIndexOutOfRange => "ARRAY_INDEX_OUT_OF_RANGE"
  | .unknownInstruction => "UNKNOWN_INSTRUCTION"
  | .programCompleted => "PROGRAM_COMPLETED"

def kind : Fault → Kind
  | .cannotMove _ _ | .pointerOutOfRange _ _ _ | .cannotSwapWithNext _ _ => .pointerOutOfRange
  | .handEmpty _ _ => .handEmpty
  | .labelNotFound _ _ _ => .labelNotFound
  | .indexOutOfRange _ _ | .negativeValue _ _ _ => .arrayIndexOutOfRange
  | .unknownInstruction _ _ => .unknownInstruction
  | .programCompleted => .programCompleted

/-! ## Places -/

/-- What a fault points at. -/
inductive Site where
  /-- The instruction at `pc` inside `depth` bodies. -/
  | instruction (depth pc : Nat)
  | cursor (target : Cursor)
  | seat (index : Int64)
  /-- The seats from the first to the last, both included. -/
  | seats (first last : Nat)
  | nowhere
deriving DecidableEq, Repr

/-- What a fault points at. The neighbour of the last possible seat is that seat itself. -/
def site : Fault → Site
  | .cannotMove target _ | .pointerOutOfRange target _ _ => .cursor target
  | .cannotSwapWithNext seat _ => .seats seat (min (seat + 1) wordMax)
  | .indexOutOfRange index _ => .seat index
  | .handEmpty depth pc | .labelNotFound _ depth pc | .negativeValue _ depth pc
  | .unknownInstruction depth pc => .instruction depth pc
  | .programCompleted => .nowhere

def Site.toJson : Site → Json
  | .instruction depth pc =>
    .record [("kind", .text "INSTRUCTION"), ("depth", .nat depth), ("pc", .nat pc)]
  | .cursor target => .record [("kind", .text "POINTER"), ("target", target.toJson)]
  | .seat index => .record [("kind", .text "ARRAY_INDEX"), ("index", .int index.toInt)]
  | .seats first last =>
    .record [("kind", .text "ARRAY_RANGE"), ("from", .nat first), ("to", .nat last)]
  | .nowhere => .record [("kind", .text "NONE")]

/-! ## Text and value -/

def message : Fault → String
  | .cannotMove target seat => s!"{target.name} cannot move past seat {seat}"
  | .pointerOutOfRange target seat length =>
    s!"{target.name} is out of range at seat {seat} (length {length})"
  | .cannotSwapWithNext seat length =>
    s!"cannot swap seat {seat} with the next seat (length {length})"
  | .handEmpty depth pc => s!"hand is empty at instruction {pc} (depth {depth})"
  | .labelNotFound label _ _ => s!"label \"{label}\" not found"
  | .indexOutOfRange index length => s!"seat index {index.toInt} out of range (length {length})"
  | .negativeValue value depth pc =>
    s!"value {value.toInt} must not be negative at instruction {pc} (depth {depth})"
  | .unknownInstruction depth pc => s!"unknown instruction at {pc} (depth {depth})"
  | .programCompleted => "program completed"

/-- A fault as a value: its name with its data, or the bare name if it has none. -/
def toJson : Fault → Json
  | .cannotMove target seat =>
    .record [("CannotMove", .record [("target", target.toJson), ("at", .nat seat)])]
  | .pointerOutOfRange target seat length =>
    .record [("PointerOutOfRange",
      .record [("target", target.toJson), ("at", .nat seat), ("length", .nat length)])]
  | .cannotSwapWithNext seat length =>
    .record [("CannotSwapWithNext", .record [("at", .nat seat), ("length", .nat length)])]
  | .handEmpty depth pc => .record [("HandEmpty", .record [("depth", .nat depth), ("pc", .nat pc)])]
  | .labelNotFound label depth pc =>
    .record [("LabelNotFound",
      .record [("label", .text label), ("depth", .nat depth), ("pc", .nat pc)])]
  | .indexOutOfRange index length =>
    .record [("IndexOutOfRange", .record [("index", .int index.toInt), ("length", .nat length)])]
  | .negativeValue value depth pc =>
    .record [("NegativeValue",
      .record [("value", .int value.toInt), ("depth", .nat depth), ("pc", .nat pc)])]
  | .unknownInstruction depth pc =>
    .record [("UnknownInstruction", .record [("depth", .nat depth), ("pc", .nat pc)])]
  | .programCompleted => .text "ProgramCompleted"

end Fault

/-! ## Policies -/

/-- What a fault means for an attempt. -/
inductive Severity where
  /-- The attempt is over and is judged as it stands. -/
  | soft
  /-- The attempt has failed. -/
  | hard
deriving DecidableEq, Repr

/-- A classification of faults. -/
abbrev Policy := Fault → Severity

/-- Running off the row ends an attempt; everything else fails it. -/
def Policy.boundary : Policy := fun fault =>
  match fault.kind with
  | .pointerOutOfRange => .soft
  | .handEmpty | .labelNotFound | .arrayIndexOutOfRange | .unknownInstruction
  | .programCompleted => .hard

/-- Faults of these kinds are soft. -/
def Policy.softOn (kinds : List Fault.Kind) : Policy := fun fault =>
  if fault.kind ∈ kinds then .soft else .hard

end SeatMachine
