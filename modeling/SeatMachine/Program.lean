import SeatMachine.Instruction.Record
import SeatMachine.Json.Reader
import SeatMachine.Json.Writer
import SeatMachine.LoadError
/-!
# Programs

A program is its top-level block. Its labels are those of the top-level block only: a label inside
a body names no place. When a name occurs twice, the later place counts.

In JSON a program is the list of its records, within the limits of an acceptable document.
-/
namespace SeatMachine

structure Program where
  block : Block
deriving DecidableEq, Repr

namespace Program

/-- The number of top-level instructions. -/
def length (p : Program) : Nat :=
  p.block.length

/-- The number of instructions, those in bodies included. -/
def instructionCount (p : Program) : Nat :=
  Instruction.countBlock p.block

/-! ## Labels -/

/-- The last place in a block that holds a label of this name. -/
def lastLabel? (name : String) : Block → Option Nat
  | [] => none
  | i :: block =>
    match lastLabel? name block with
    | some place => some (place + 1)
    | none => if i.isLabel name then some 0 else none

/-- The place a label stands for. -/
def resolve (p : Program) (name : String) : Option Nat :=
  lastLabel? name p.block

/-- The names of the labels, without repetition. -/
def labelNames (p : Program) : List String :=
  (p.block.filterMap Instruction.labelName?).eraseDups

/-- The number of names that stand for a place. -/
def labelCount (p : Program) : Nat :=
  p.labelNames.length

/-! ## JSON -/

def toJson (p : Program) : Json :=
  .array (Instruction.blockToJson p.block)

def ofJson? : Json → Option Program
  | .array items => (items.mapM Instruction.ofJson?).map Program.mk
  | _ => none

def write (p : Program) : String :=
  p.toJson.compact

def load (text : String) : Except LoadError Program :=
  match Json.parse? text with
  | some j =>
    if j.isAcceptable then
      match ofJson? j with
      | some p => .ok p
      | none => .error (.json .program)
    else .error (.json .program)
  | none => .error (.json .program)

end Program

end SeatMachine
