import SeatMachine.Machine.Step
/-!
# Transitions

What a step can do, said once. A snapshot is taken apart into its store (the row of seats, the
cursors and the hand), its stack and its count of steps: an operation works on the store alone, and
what happens to the stack depends only on whether the operation jumps, goes on or fails.

`Transition` lists the cases, and `step_eq_iff` says that they are those of `Snapshot.step`. What
steps keep is shown by going through the cases.
-/
namespace SeatMachine

/-! ## Frames -/

theorem Frame.pc_lt {frame : Frame} {i : Instruction} (h : frame.current? = some i) :
    frame.pc < frame.block.length :=
  (List.getElem?_eq_some_iff.1 h).1

theorem Frame.mem_block {frame : Frame} {i : Instruction} (h : frame.current? = some i) :
    i ∈ frame.block :=
  List.mem_of_getElem? h

/-! ## Stores -/

/-- What instructions work on. -/
structure Store where
  array : List Int64
  moco : Nat
  choco : Nat
  hand : Option Int64
deriving DecidableEq, Repr

/-- The part of a snapshot that instructions work on. -/
def Snapshot.store (s : Snapshot) : Store :=
  ⟨s.array, s.moco, s.choco, s.hand⟩

namespace Store

def snapshot (st : Store) (stack : List Frame) (stepCount : UInt64) : Snapshot :=
  ⟨st.array, st.moco, st.choco, st.hand, stack, stepCount⟩

theorem snapshot_store (s : Snapshot) : s.store.snapshot s.stack s.stepCount = s := rfl

/-! ## Operations on a store -/

def cursor (st : Store) : Cursor → Nat
  | .moco => st.moco
  | .choco => st.choco

def place (st : Store) (target : Cursor) (seat : Nat) : Store :=
  match target with
  | .moco => { st with moco := seat }
  | .choco => { st with choco := seat }

def seat (st : Store) (target : Cursor) : Except Fault Int64 :=
  match st.array[st.cursor target]? with
  | some value => .ok value
  | none => .error (.pointerOutOfRange target (st.cursor target) st.array.length)

def write (st : Store) (target : Cursor) (value : Int64) : Store :=
  { st with array := st.array.set (st.cursor target) value }

/-- The value in the hand, for the instruction at `pc` inside `depth` bodies. -/
def held (st : Store) (depth pc : Nat) : Except Fault Int64 :=
  match st.hand with
  | some value => .ok value
  | none => .error (.handEmpty depth pc)

/-- The label that an operation jumps to, if it jumps. -/
def jumpLabel? (st : Store) : Operation → Option String
  | .jump label => some label
  | .ifEnd target label => if st.cursor target + 1 = st.array.length then some label else none
  | .ifMeet label => if st.moco = st.choco then some label else none
  | _ => none

/-- What an operation at `pc` inside `depth` bodies makes of a store if it does not jump. -/
def effect (st : Store) (depth pc : Nat) : Operation → Except Fault Store
  | .moveLeft target => do
    let _ ← st.seat target
    if st.cursor target = 0 then .error (.cannotMove target 0)
    else return st.place target (st.cursor target - 1)
  | .moveRight target => do
    let _ ← st.seat target
    if st.cursor target + 1 < st.array.length then return st.place target (st.cursor target + 1)
    else .error (.cannotMove target (st.cursor target))
  | .moveToEnd target =>
    if st.array = [] then .error (.pointerOutOfRange target (st.cursor target) 0)
    else .ok (st.place target (st.array.length - 1))
  | .setPointer target index =>
    if 0 ≤ index.toInt ∧ index.toInt < st.array.length then .ok (st.place target index.toInt.toNat)
    else .error (.indexOutOfRange index st.array.length)
  | .setValue target value =>
    if value < 0 then .error (.negativeValue value depth pc)
    else do
      let _ ← st.seat target
      return st.write target value
  | .pick target => do
    let value ← st.seat target
    return { st with hand := some value }
  | .put target => do
    let _ ← st.seat target
    let value ← st.held depth pc
    return st.write target value
  | .swap => do
    let moco ← st.seat .moco
    let choco ← st.seat .choco
    return (st.write .moco choco).write .choco moco
  | .swapWithNext target =>
    match st.array[st.cursor target]?, st.array[st.cursor target + 1]? with
    | some here, some next =>
      .ok { st with
        array := (st.array.set (st.cursor target) next).set (st.cursor target + 1) here }
    | _, _ => .error (.cannotSwapWithNext (st.cursor target) st.array.length)
  | .increment target => do
    let value ← st.seat target
    return st.write target (value + 1)
  | .decrement target => do
    let value ← st.seat target
    return st.write target (value - 1)
  | .ifEnd _ _ | .ifMeet _ | .jump _ | .label _ | .wait => .ok st
  | .unknown => .error (.unknownInstruction depth pc)

/-- Whether a conditional at `pc` inside `depth` bodies is entered. -/
def test (st : Store) (depth pc : Nat) (comparison : Comparison) (target : Cursor) :
    Except Fault Bool := do
  let hand ← st.held depth pc
  let seat ← st.seat target
  return comparison.holds hand seat

/-! ## When there is a value -/

section

variable {st : Store} {depth pc : Nat} {target : Cursor}

theorem seat_eq_ok_iff {value : Int64} : st.seat target = .ok value ↔ st.array[st.cursor target]? = some value := by
  unfold seat
  cases st.array[st.cursor target]? with
  | none => simp
  | some here => simp

theorem seat_of_lt (h : st.cursor target < st.array.length) : st.seat target = .ok st.array[st.cursor target] := by
  simp [seat, h]

theorem seat_of_le (h : st.array.length ≤ st.cursor target) :
    st.seat target = .error (.pointerOutOfRange target (st.cursor target) st.array.length) := by
  simp [seat, h]

theorem held_eq_ok_iff {value : Int64} : st.held depth pc = .ok value ↔ st.hand = some value := by
  unfold held
  cases st.hand with
  | none => simp
  | some held => simp

/-- The operations that jump: the jump, and the two others where their condition holds. -/
theorem jumpLabel?_eq_some_iff {o : Operation} {label : String} :
    st.jumpLabel? o = some label ↔
      o = .jump label ∨ (∃ target, o = .ifEnd target label ∧ st.cursor target + 1 = st.array.length) ∨
        (o = .ifMeet label ∧ st.moco = st.choco) := by
  constructor
  · intro h
    cases o with
    | jump name =>
      cases h
      exact Or.inl rfl
    | ifEnd target name =>
      obtain ⟨hend, rfl⟩ : st.cursor target + 1 = st.array.length ∧ name = label := by simpa [jumpLabel?] using h
      exact Or.inr (Or.inl ⟨target, rfl, hend⟩)
    | ifMeet name =>
      obtain ⟨hmeet, rfl⟩ : st.moco = st.choco ∧ name = label := by simpa [jumpLabel?] using h
      exact Or.inr (Or.inr ⟨rfl, hmeet⟩)
    | _ => cases h
  · rintro (rfl | ⟨target, rfl, hend⟩ | ⟨rfl, hmeet⟩)
    · rfl
    · simp [jumpLabel?, hend]
    · simp [jumpLabel?, hmeet]

/-- A seat without a right neighbour, on the row or beyond it, is not exchanged. -/
theorem effect_swapWithNext_of_le (h : st.array.length ≤ st.cursor target + 1) :
    st.effect depth pc (.swapWithNext target) =
      .error (.cannotSwapWithNext (st.cursor target) st.array.length) := by
  simp only [effect, List.getElem?_eq_none h]
  cases st.array[st.cursor target]? <;> rfl

/-- A conditional is decided by comparing the hand with the seat under the cursor. -/
theorem test_eq_ok_iff {c : Comparison} {taken : Bool} :
    st.test depth pc c target = .ok taken ↔
      ∃ hand seat, st.hand = some hand ∧ st.array[st.cursor target]? = some seat ∧ c.holds hand seat = taken := by
  have hheld : ∀ hand, st.hand = some hand ↔ st.held depth pc = .ok hand := fun _ => held_eq_ok_iff.symm
  simp only [hheld, ← seat_eq_ok_iff]
  unfold test
  cases st.held depth pc with
  | error fault => simp [bind, Except.bind]
  | ok hand =>
    cases st.seat target with
    | error fault => simp [bind, Except.bind]
    | ok seat => simp [bind, Except.bind, pure, Except.pure]

end

/-! ## The same operations on a snapshot -/

theorem array_snapshot (st : Store) (stack : List Frame) (n : UInt64) :
    (st.snapshot stack n).array = st.array := rfl

theorem cursor_snapshot (st : Store) (stack : List Frame) (n : UInt64) (target : Cursor) :
    (st.snapshot stack n).cursor target = st.cursor target := by
  cases target <;> rfl

theorem setCursor_snapshot (st : Store) (stack : List Frame) (n : UInt64) (target : Cursor)
    (seat : Nat) : (st.snapshot stack n).setCursor target seat = (st.place target seat).snapshot stack n := by
  cases target <;> rfl

theorem under_snapshot (st : Store) (stack : List Frame) (n : UInt64) (target : Cursor) :
    (st.snapshot stack n).under target = st.seat target := by
  cases target <;> rfl

theorem setUnder_snapshot (st : Store) (stack : List Frame) (n : UInt64) (target : Cursor)
    (value : Int64) : (st.snapshot stack n).setUnder target value = (st.write target value).snapshot stack n := by
  cases target <;> rfl

theorem held_snapshot (st : Store) (frame : Frame) (outer : List Frame) (n : UInt64) :
    (st.snapshot (frame :: outer) n).held = st.held outer.length frame.pc := rfl

theorem advance_snapshot (st : Store) (frame : Frame) (outer : List Frame) (n : UInt64) :
    (st.snapshot (frame :: outer) n).advance = st.snapshot (frame.next :: outer) n := rfl

theorem jump_snapshot (st : Store) (frame : Frame) (outer : List Frame) (n : UInt64)
    (program : Program) (label : String) :
    (st.snapshot (frame :: outer) n).jump program label =
      match program.resolve label with
      | some place => .ok (st.snapshot [⟨program.block, place⟩] n)
      | none => .error (.labelNotFound label outer.length frame.pc) := rfl

theorem adjust_snapshot (st : Store) (frame : Frame) (outer : List Frame) (n : UInt64)
    (target : Cursor) (f : Int64 → Int64) :
    (st.snapshot (frame :: outer) n).adjust target f =
      ((st.seat target).map fun value => st.write target (f value)).map
        (·.snapshot (frame.next :: outer) n) := by
  simp only [Snapshot.adjust, under_snapshot, setUnder_snapshot]
  cases st.seat target <;> rfl

theorem jumpIf_snapshot (st : Store) (frame : Frame) (outer : List Frame) (n : UInt64)
    (program : Program) (taken : Bool) (label : String) :
    (st.snapshot (frame :: outer) n).jumpIf program taken label =
      match if taken then some label else none with
      | some label => (st.snapshot (frame :: outer) n).jump program label
      | none => .ok (st.snapshot (frame.next :: outer) n) := by
  cases taken <;> rfl

/-- An operation on a snapshot is the same operation on its store: a jump leaves all blocks, and
anything else moves the innermost block on. -/
theorem perform_snapshot (st : Store) (frame : Frame) (outer : List Frame) (n : UInt64)
    (program : Program) (o : Operation) :
    (st.snapshot (frame :: outer) n).perform program o =
      match st.jumpLabel? o with
      | some label => (st.snapshot (frame :: outer) n).jump program label
      | none => (st.effect outer.length frame.pc o).map (·.snapshot (frame.next :: outer) n) := by
  cases o with
  | moveLeft target =>
    simp only [Snapshot.perform, Snapshot.moveLeft, jumpLabel?, effect, under_snapshot, cursor_snapshot,
      setCursor_snapshot, advance_snapshot]
    cases st.seat target with
    | error fault => rfl
    | ok value => cases st.cursor target <;> rfl
  | moveRight target =>
    simp only [Snapshot.perform, Snapshot.moveRight, jumpLabel?, effect, under_snapshot, cursor_snapshot,
      setCursor_snapshot, advance_snapshot, array_snapshot]
    cases st.seat target with
    | error fault => rfl
    | ok value =>
      by_cases h : st.cursor target + 1 < st.array.length
      · simp only [h, if_true]; rfl
      · simp only [h, if_false]; rfl
  | moveToEnd target =>
    simp only [Snapshot.perform, Snapshot.moveToEnd, jumpLabel?, effect, cursor_snapshot,
      setCursor_snapshot, advance_snapshot, array_snapshot]
    cases st.array <;> rfl
  | setPointer target index =>
    simp only [Snapshot.perform, Snapshot.setPointer, jumpLabel?, effect, setCursor_snapshot,
      advance_snapshot, array_snapshot]
    split <;> rfl
  | setValue target value =>
    simp only [Snapshot.perform, Snapshot.setValue, jumpLabel?, effect, under_snapshot,
      setUnder_snapshot, advance_snapshot]
    split
    · rfl
    · cases st.seat target <;> rfl
  | pick target =>
    simp only [Snapshot.perform, Snapshot.pick, jumpLabel?, effect, under_snapshot]
    cases st.seat target <;> rfl
  | put target =>
    simp only [Snapshot.perform, Snapshot.put, jumpLabel?, effect, under_snapshot, held_snapshot,
      setUnder_snapshot, advance_snapshot]
    cases st.seat target with
    | error fault => rfl
    | ok value => cases st.held outer.length frame.pc <;> rfl
  | swap =>
    simp only [Snapshot.perform, Snapshot.swap, jumpLabel?, effect, under_snapshot, setUnder_snapshot,
      advance_snapshot]
    cases st.seat .moco with
    | error fault => rfl
    | ok moco => cases st.seat .choco <;> rfl
  | swapWithNext target =>
    simp only [Snapshot.perform, Snapshot.swapWithNext, jumpLabel?, effect, cursor_snapshot, array_snapshot]
    cases st.array[st.cursor target]? with
    | none => rfl
    | some here => cases st.array[st.cursor target + 1]? <;> rfl
  | increment target =>
    simp only [Snapshot.perform, jumpLabel?, effect, adjust_snapshot]
    cases st.seat target <;> rfl
  | decrement target =>
    simp only [Snapshot.perform, jumpLabel?, effect, adjust_snapshot]
    cases st.seat target <;> rfl
  | ifEnd target label =>
    simp only [Snapshot.perform, Snapshot.isAtEnd, jumpLabel?, effect, cursor_snapshot, array_snapshot,
      jumpIf_snapshot, beq_iff_eq]
    split <;> rfl
  | ifMeet label =>
    simp only [Snapshot.perform, jumpLabel?, effect, jumpIf_snapshot, beq_iff_eq]
    rfl
  | jump label => rfl
  | label name => rfl
  | wait => rfl
  | unknown => rfl

theorem branch_snapshot (st : Store) (frame : Frame) (outer : List Frame) (n : UInt64)
    (comparison : Comparison) (target : Cursor) (body : Block) :
    (st.snapshot (frame :: outer) n).branch comparison target body =
      (st.test outer.length frame.pc comparison target).map fun taken =>
        if taken then st.snapshot (⟨body, 0⟩ :: frame :: outer) n
        else st.snapshot (frame.next :: outer) n := by
  simp only [Snapshot.branch, test, held_snapshot, under_snapshot]
  cases st.held outer.length frame.pc with
  | error fault => rfl
  | ok hand => cases st.seat target <;> rfl

theorem step_snapshot (st : Store) (frame : Frame) (outer : List Frame) (n : UInt64)
    (program : Program) :
    (st.snapshot (frame :: outer) n).step program =
      match frame.current? with
      | none => (st.snapshot (frame :: outer) n).leave outer
      | some instruction =>
        match (st.snapshot (frame :: outer) n).run program instruction with
        | .ok s => (.advanced, s.countStep)
        | .error fault => (.failed fault, st.snapshot (frame :: outer) n) := rfl

end Store

/-! ## The cases of a step -/

/-- All that a step can do: from a snapshot, with an outcome, to a snapshot. -/
inductive Transition (program : Program) : Snapshot → Outcome → Snapshot → Prop
  /-- Nothing is being run. -/
  | idle {st : Store} {n : UInt64} :
    Transition program (st.snapshot [] n) (.failed .programCompleted) (st.snapshot [] n)
  /-- The program is left at its end. -/
  | complete {st : Store} {frame : Frame} {n : UInt64} :
    frame.current? = none →
    Transition program (st.snapshot [frame] n) .completed (st.snapshot [] n)
  /-- A body is left at its end, and the block around it goes on. -/
  | leave {st : Store} {frame outer : Frame} {rest : List Frame} {n : UInt64} :
    frame.current? = none →
    Transition program (st.snapshot (frame :: outer :: rest) n) .advanced
      (st.snapshot (outer.next :: rest) (n + 1))
  /-- An operation that does not jump. -/
  | operate {st st' : Store} {frame : Frame} {outer : List Frame} {n : UInt64} {o : Operation} :
    frame.current? = some (.op o) → st.jumpLabel? o = none →
    st.effect outer.length frame.pc o = .ok st' →
    Transition program (st.snapshot (frame :: outer) n) .advanced
      (st'.snapshot (frame.next :: outer) (n + 1))
  /-- An operation that jumps leaves all blocks and goes on at its label. -/
  | jump {st : Store} {frame : Frame} {outer : List Frame} {n : UInt64} {o : Operation}
      {label : String} {place : Nat} :
    frame.current? = some (.op o) → st.jumpLabel? o = some label →
    program.resolve label = some place →
    Transition program (st.snapshot (frame :: outer) n) .advanced
      (st.snapshot [⟨program.block, place⟩] (n + 1))
  /-- A conditional that is entered. -/
  | enter {st : Store} {frame : Frame} {outer : List Frame} {n : UInt64} {c : Comparison}
      {target : Cursor} {body : Block} :
    frame.current? = some (.branch c target body) →
    st.test outer.length frame.pc c target = .ok true →
    Transition program (st.snapshot (frame :: outer) n) .advanced
      (st.snapshot (⟨body, 0⟩ :: frame :: outer) (n + 1))
  /-- A conditional that is passed over. -/
  | pass {st : Store} {frame : Frame} {outer : List Frame} {n : UInt64} {c : Comparison}
      {target : Cursor} {body : Block} :
    frame.current? = some (.branch c target body) →
    st.test outer.length frame.pc c target = .ok false →
    Transition program (st.snapshot (frame :: outer) n) .advanced
      (st.snapshot (frame.next :: outer) (n + 1))
  /-- An operation that cannot be done. -/
  | stuck {st : Store} {frame : Frame} {outer : List Frame} {n : UInt64} {o : Operation}
      {fault : Fault} :
    frame.current? = some (.op o) → st.jumpLabel? o = none →
    st.effect outer.length frame.pc o = .error fault →
    Transition program (st.snapshot (frame :: outer) n) (.failed fault) (st.snapshot (frame :: outer) n)
  /-- An operation that jumps to a label the program does not have. -/
  | lost {st : Store} {frame : Frame} {outer : List Frame} {n : UInt64} {o : Operation}
      {label : String} :
    frame.current? = some (.op o) → st.jumpLabel? o = some label →
    program.resolve label = none →
    Transition program (st.snapshot (frame :: outer) n)
      (.failed (.labelNotFound label outer.length frame.pc)) (st.snapshot (frame :: outer) n)
  /-- A conditional that cannot be decided. -/
  | undecided {st : Store} {frame : Frame} {outer : List Frame} {n : UInt64} {c : Comparison}
      {target : Cursor} {body : Block} {fault : Fault} :
    frame.current? = some (.branch c target body) →
    st.test outer.length frame.pc c target = .error fault →
    Transition program (st.snapshot (frame :: outer) n) (.failed fault) (st.snapshot (frame :: outer) n)

namespace Transition

variable {program : Program} {s s' : Snapshot} {outcome : Outcome}

theorem eq_step (h : Transition program s outcome s') : s.step program = (outcome, s') := by
  cases h with
  | idle => rfl
  | complete hc => simp only [Store.step_snapshot, hc]; rfl
  | leave hc => simp only [Store.step_snapshot, hc]; rfl
  | operate hc hl he =>
    simp only [Store.step_snapshot, hc, Snapshot.run, Store.perform_snapshot, hl, he]; rfl
  | jump hc hl hr =>
    simp only [Store.step_snapshot, hc, Snapshot.run, Store.perform_snapshot, hl, Store.jump_snapshot, hr]; rfl
  | enter hc ht => simp only [Store.step_snapshot, hc, Snapshot.run, Store.branch_snapshot, ht]; rfl
  | pass hc ht => simp only [Store.step_snapshot, hc, Snapshot.run, Store.branch_snapshot, ht]; rfl
  | stuck hc hl he =>
    simp only [Store.step_snapshot, hc, Snapshot.run, Store.perform_snapshot, hl, he]; rfl
  | lost hc hl hr =>
    simp only [Store.step_snapshot, hc, Snapshot.run, Store.perform_snapshot, hl, Store.jump_snapshot, hr]
  | undecided hc ht => simp only [Store.step_snapshot, hc, Snapshot.run, Store.branch_snapshot, ht]; rfl

/-- Every step is one of the cases. -/
theorem of_step (program : Program) (s : Snapshot) :
    Transition program s (s.step program).1 (s.step program).2 := by
  -- A step has one result, so it is enough to find some transition.
  suffices ∃ outcome s', Transition program s outcome s' by
    obtain ⟨outcome, s', h⟩ := this
    rw [h.eq_step]; exact h
  rw [← Store.snapshot_store s]
  generalize s.store = st
  generalize s.stepCount = n
  cases s.stack with
  | nil => exact ⟨_, _, .idle⟩
  | cons frame outer =>
    cases hc : frame.current? with
    | none =>
      cases outer with
      | nil => exact ⟨_, _, .complete hc⟩
      | cons outer rest => exact ⟨_, _, .leave hc⟩
    | some instruction =>
      cases instruction with
      | op o =>
        cases hl : st.jumpLabel? o with
        | none =>
          cases he : st.effect outer.length frame.pc o with
          | ok st' => exact ⟨_, _, .operate hc hl he⟩
          | error fault => exact ⟨_, _, .stuck hc hl he⟩
        | some label =>
          cases hr : program.resolve label with
          | some place => exact ⟨_, _, .jump hc hl hr⟩
          | none => exact ⟨_, _, .lost hc hl hr⟩
      | branch c target body =>
        cases ht : st.test outer.length frame.pc c target with
        | error fault => exact ⟨_, _, .undecided hc ht⟩
        | ok taken =>
          cases taken with
          | true => exact ⟨_, _, .enter hc ht⟩
          | false => exact ⟨_, _, .pass hc ht⟩

theorem stepCount_of_advanced (h : Transition program s .advanced s') :
    s'.stepCount = s.stepCount + 1 := by
  cases h <;> rfl

theorem stepCount_of_ne_advanced (h : Transition program s outcome s') (hne : outcome ≠ .advanced) :
    s'.stepCount = s.stepCount := by
  cases h <;> first | rfl | exact absurd rfl hne

theorem eq_of_failed {fault : Fault} (h : Transition program s (.failed fault) s') : s' = s := by
  cases h <;> rfl

end Transition

namespace Snapshot

/-- A snapshot with something to run, taken apart. -/
theorem exists_frame_of_current {s : Snapshot} {i : Instruction} (h : s.current? = some i) :
    ∃ st frame outer n, s = Store.snapshot st (frame :: outer) n ∧ frame.current? = some i := by
  cases hs : s.stack with
  | nil => simp [current?, hs] at h
  | cons frame outer =>
    refine ⟨s.store, frame, outer, s.stepCount, ?_, ?_⟩
    · rw [← hs, Store.snapshot_store]
    · simpa [current?, hs] using h

theorem step_eq_iff {program : Program} {s s' : Snapshot} {outcome : Outcome} :
    s.step program = (outcome, s') ↔ Transition program s outcome s' := by
  constructor
  · intro h
    have ht := Transition.of_step program s
    rw [h] at ht
    exact ht
  · exact Transition.eq_step

end Snapshot

end SeatMachine
