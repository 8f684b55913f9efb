import SeatMachine.Proofs.Machine.Course
import SeatMachine.Proofs.Machine.Transition
import SeatMachine.Proofs.Program.Labels
/-!
# Nesting

The blocks being run are nested: the outermost is the program, and each of the others is the body of
the conditional at which the block around it stands. `Nested` says so of a stack, and
`nested_transition` goes through what a step can do to it: enter a body, go on, leave a body at its
end, or leave all of them by a jump.

It follows that no stack is deeper than the program is nested and that only instructions of the
program are ever run. Since a rewind leads back to a place on the same course, this is true after any
steps and rewinds, and of every snapshot in the history: `moves_well_nested`.
-/
namespace SeatMachine

/-! ## Instructions inside instructions -/

namespace Instruction

mutual

/-- How deep conditionals are nested in an instruction, itself included. -/
def nesting : Instruction → Nat
  | .op _ => 0
  | .branch _ _ body => 1 + nestingBlock body
termination_by structural i => i

def nestingBlock : Block → Nat
  | [] => 0
  | i :: block => max i.nesting (nestingBlock block)
termination_by structural block => block

end

theorem nesting_le_of_mem {i : Instruction} : ∀ {block : Block}, i ∈ block → i.nesting ≤ nestingBlock block
  | j :: block, h => by
    rw [nestingBlock]
    rcases List.mem_cons.1 h with rfl | h
    · exact Nat.le_max_left _ _
    · exact Nat.le_trans (nesting_le_of_mem h) (Nat.le_max_right _ _)

/-- The instruction stands in a block, or in a body inside it at any depth. -/
inductive Occurs (i : Instruction) : Block → Prop
  | here {block : Block} : i ∈ block → Occurs i block
  | inside {block body : Block} {c : Comparison} {target : Cursor} :
    .branch c target body ∈ block → Occurs i body → Occurs i block

end Instruction

namespace Program

def nesting (p : Program) : Nat :=
  Instruction.nestingBlock p.block

def Contains (p : Program) (i : Instruction) : Prop :=
  i.Occurs p.block

end Program

/-! ## Nested frames -/

/-- The frames of a stack, innermost first: the last runs the program, and each other one the body of
the conditional at which the next one stands. -/
def Nested (program : Program) : List Frame → Prop
  | [] => True
  | [frame] => frame.block = program.block ∧ frame.pc ≤ frame.block.length
  | frame :: outer :: rest =>
    frame.pc ≤ frame.block.length ∧
      (∃ c target, outer.current? = some (.branch c target frame.block)) ∧
      Nested program (outer :: rest)

theorem nested_start (array : List Int64) (program : Program) :
    Nested program (Snapshot.start array program).stack :=
  ⟨rfl, Nat.zero_le _⟩

theorem nested_next {program : Program} {frame : Frame} {outer : List Frame} {i : Instruction}
    (h : Nested program (frame :: outer)) (hc : frame.current? = some i) :
    Nested program (frame.next :: outer) := by
  have hlt := Frame.pc_lt hc
  cases outer with
  | nil => exact ⟨h.1, hlt⟩
  | cons outer rest => exact ⟨hlt, h.2.1, h.2.2⟩

theorem nested_enter {program : Program} {frame : Frame} {outer : List Frame} {c : Comparison}
    {target : Cursor} {body : Block} (h : Nested program (frame :: outer))
    (hc : frame.current? = some (.branch c target body)) :
    Nested program (⟨body, 0⟩ :: frame :: outer) :=
  ⟨Nat.zero_le _, ⟨c, target, hc⟩, h⟩

theorem nested_leave {program : Program} {frame outer : Frame} {rest : List Frame}
    (h : Nested program (frame :: outer :: rest)) : Nested program (outer.next :: rest) := by
  obtain ⟨-, ⟨c, target, hc⟩, hrest⟩ := h
  exact nested_next hrest hc

theorem nested_jump {program : Program} {label : String} {place : Nat}
    (h : program.resolve label = some place) : Nested program [⟨program.block, place⟩] :=
  ⟨rfl, Nat.le_of_lt (Program.resolve_lt h)⟩

/-- One step: every case of it keeps the frames nested. -/
theorem nested_transition {program : Program} {s s' : Snapshot} {outcome : Outcome}
    (h : Transition program s outcome s') (hn : Nested program s.stack) : Nested program s'.stack := by
  cases h with
  | idle => exact hn
  | complete => exact True.intro
  | leave => exact nested_leave hn
  | operate hc => exact nested_next hn hc
  | jump _ _ hr => exact nested_jump hr
  | enter hc => exact nested_enter hn hc
  | pass hc => exact nested_next hn hc
  | stuck => exact hn
  | lost => exact hn
  | undecided => exact hn

/-- Any number of steps. -/
theorem nested_after (array : List Int64) (program : Program) (k : Nat) :
    Nested program ((Snapshot.start array program).after program k).stack :=
  Snapshot.after_invariant (nested_start array program)
    (fun s => nested_transition (Transition.of_step program s)) k

/-! ## What follows from nesting -/

/-- What occurs in the innermost block occurs in the program. -/
theorem contains_of_nested {program : Program} {i : Instruction} :
    ∀ {frame : Frame} {outer : List Frame}, Nested program (frame :: outer) →
      i.Occurs frame.block → program.Contains i
  | _, [], h, hi => by rw [h.1] at hi; exact hi
  | _, _ :: _, h, hi => by
    obtain ⟨-, ⟨c, target, hc⟩, hrest⟩ := h
    exact contains_of_nested hrest (.inside (Frame.mem_block hc) hi)

/-- Every body around the innermost block takes one away from the nesting that is left. -/
theorem nesting_of_nested {program : Program} :
    ∀ {frame : Frame} {outer : List Frame}, Nested program (frame :: outer) →
      outer.length + Instruction.nestingBlock frame.block ≤ program.nesting
  | _, [], h => by rw [h.1]; simp [Program.nesting]
  | _, outer :: rest, h => by
    obtain ⟨-, ⟨c, target, hc⟩, hrest⟩ := h
    have ih := nesting_of_nested hrest
    have hle := Instruction.nesting_le_of_mem (Frame.mem_block hc)
    rw [Instruction.nesting] at hle
    rw [List.length_cons]
    omega

theorem contains_current {program : Program} {s : Snapshot} {i : Instruction}
    (h : Nested program s.stack) (hc : s.current? = some i) : program.Contains i := by
  unfold Snapshot.current? at hc
  cases hs : s.stack with
  | nil => rw [hs] at hc; cases hc
  | cons frame outer =>
    rw [hs] at hc h
    exact contains_of_nested h (.here (Frame.mem_block hc))

theorem depth_le_nesting {program : Program} {s : Snapshot} (h : Nested program s.stack) :
    s.depth ≤ 1 + program.nesting := by
  unfold Snapshot.depth
  cases hs : s.stack with
  | nil => simp
  | cons frame outer =>
    rw [hs] at h
    have := nesting_of_nested h
    rw [List.length_cons]
    omega

/-! ## Frame by frame -/

/-- A stack, frame by frame: the outermost block is the program, no place is beyond the end of its
block, and of two frames next to each other the outer one stands at a conditional whose body is the
block of the inner one. -/
structure WellNested (program : Program) (stack : List Frame) : Prop where
  top : ∀ frame, stack.getLast? = some frame → frame.block = program.block
  pc_le : ∀ frame ∈ stack, frame.pc ≤ frame.block.length
  body : ∀ i inner outer, stack[i]? = some inner → stack[i + 1]? = some outer →
    outer.pc < outer.block.length ∧
      ∃ c target, outer.block[outer.pc]? = some (.branch c target inner.block)

theorem wellNested_of_nested {program : Program} :
    ∀ {stack : List Frame}, Nested program stack → WellNested program stack
  | [], _ => ⟨by simp, by simp, by simp⟩
  | [frame], h => by
    refine ⟨fun f hf => ?_, fun f hf => ?_, by simp⟩
    · simp at hf; subst hf; exact h.1
    · simp at hf; subst hf; exact h.2
  | frame :: outer :: rest, h => by
    obtain ⟨hpc, ⟨c, target, hc⟩, hrest⟩ := h
    have ih := wellNested_of_nested hrest
    refine ⟨fun f hf => ?_, fun f hf => ?_, fun i inner outer' hi ho => ?_⟩
    · rw [List.getLast?_cons_cons] at hf
      exact ih.top f hf
    · rcases List.mem_cons.1 hf with rfl | hf
      · exact hpc
      · exact ih.pc_le f hf
    · cases i with
      | zero =>
        cases hi; cases ho
        exact ⟨Frame.pc_lt hc, c, target, hc⟩
      | succ i => exact ih.body i inner outer' hi ho

/-- **The stack is well nested.** After any steps, failed ones included, and rewinds from the start of
a program, whatever the limit on the history, the frames of the machine and those of every snapshot in
its history are well nested; no stack is deeper than one more than the nesting of the program, and
what is to be run next occurs in the program. -/
theorem moves_well_nested (array : List Int64) (program : Program) (limit : Option Nat)
    (as : List Move) :
    let m := (Machine.start array program limit).moves as
    ∀ s ∈ m.toSnapshot :: m.history.toList,
      WellNested program s.stack ∧ s.depth ≤ 1 + program.nesting ∧
        ∀ i, s.current? = some i → program.Contains i := by
  intro m s hs
  obtain ⟨k, rfl⟩ := Machine.exists_after_of_mem hs
  have hn := nested_after array program k
  exact ⟨wellNested_of_nested hn, depth_le_nesting hn, fun i hi => contains_current hn hi⟩

/-- A machine inside two bodies, with a history of one snapshot. -/
theorem moves_well_nested_inside :
    let program : Program :=
      ⟨[.op (.pick .moco), .branch .equal .moco [.op .wait, .branch .equal .choco []]]⟩
    let m := (Machine.start [5, 4] program (some 1)).moves [.step, .step, .rewind, .step, .step, .step]
    m.depth = 3 ∧ m.history.size = 1 ∧ m.depth ≤ 1 + program.nesting ∧ WellNested program m.stack ∧
      ∀ s ∈ m.history.toList, WellNested program s.stack := by
  intro program m
  have h := moves_well_nested [5, 4] program (some 1) [.step, .step, .rewind, .step, .step, .step]
  obtain ⟨hnow, hdepth, -⟩ := h m.toSnapshot (List.mem_cons_self ..)
  exact ⟨by decide, by decide, hdepth, hnow, fun s hs => (h s (List.mem_cons_of_mem _ hs)).1⟩

end SeatMachine
