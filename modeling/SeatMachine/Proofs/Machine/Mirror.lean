import SeatMachine.Proofs.Machine.Course
import SeatMachine.Proofs.Machine.Hindrance
/-!
# Mirror images

The two cursors are alike: exchange them everywhere, in the program at every depth, in the frames, in the store and in
the history, and the machine does the same with its cursors exchanged. `mirror` is the exchange on each of these.

A fault of the mirror image need not be the mirror image of the fault. An exchange of seats looks at its first cursor
first, so if both cursors are off the row the fault names that cursor either way. Only the kind of a fault is the
same; `Image` relates two results with this in mind, and `Store.effect_mirror` goes through the operations.
`Transition.mirror` has a case for each case of a step, and `Machine.step_mirror` is what sessions need of it.
-/
namespace SeatMachine

/-! ## The exchange -/

def Cursor.other : Cursor → Cursor
  | .moco => .choco
  | .choco => .moco

/-- The operation with the other cursor. -/
def Operation.mirror : Operation → Operation
  | .moveLeft target => .moveLeft target.other
  | .moveRight target => .moveRight target.other
  | .moveToEnd target => .moveToEnd target.other
  | .setPointer target index => .setPointer target.other index
  | .setValue target value => .setValue target.other value
  | .pick target => .pick target.other
  | .put target => .put target.other
  | .swap => .swap
  | .swapWithNext target => .swapWithNext target.other
  | .increment target => .increment target.other
  | .decrement target => .decrement target.other
  | .ifEnd target name => .ifEnd target.other name
  | .ifMeet name => .ifMeet name
  | .jump name => .jump name
  | .label name => .label name
  | .wait => .wait
  | .unknown => .unknown

namespace Instruction

mutual

/-- The instruction with the cursors exchanged, also inside its body. -/
def mirror : Instruction → Instruction
  | .op o => .op o.mirror
  | .branch c target body => .branch c target.other (mirrorBlock body)
termination_by structural i => i

def mirrorBlock : Block → Block
  | [] => []
  | i :: block => i.mirror :: mirrorBlock block
termination_by structural block => block

end

theorem mirrorBlock_eq_map : ∀ block : Block, mirrorBlock block = block.map mirror
  | [] => rfl
  | i :: block => by rw [mirrorBlock, mirrorBlock_eq_map block, List.map_cons]

mutual

theorem count_mirror : ∀ i : Instruction, i.mirror.count = i.count
  | .op _ => by simp only [mirror, count]
  | .branch _ _ body => by simp only [mirror, count, countBlock_mirrorBlock body]

theorem countBlock_mirrorBlock : ∀ block : Block, countBlock (mirrorBlock block) = countBlock block
  | [] => rfl
  | i :: block => by simp only [mirrorBlock, countBlock, count_mirror i, countBlock_mirrorBlock block]

end

theorem isLabel_mirror (name : String) (i : Instruction) : i.mirror.isLabel name = i.isLabel name := by
  cases i with
  | op o => cases o <;> simp [mirror, Operation.mirror, isLabel]
  | branch c target body => simp [mirror, isLabel]

end Instruction

namespace Program

def mirror (p : Program) : Program :=
  ⟨Instruction.mirrorBlock p.block⟩

theorem lastLabel?_mirrorBlock (name : String) :
    ∀ block : Block, lastLabel? name (Instruction.mirrorBlock block) = lastLabel? name block
  | [] => rfl
  | i :: block => by
    simp only [Instruction.mirrorBlock, lastLabel?, lastLabel?_mirrorBlock name block, Instruction.isLabel_mirror]

/-- Labels have no cursor, and stay where they are. -/
theorem resolve_mirror (p : Program) (name : String) : p.mirror.resolve name = p.resolve name :=
  lastLabel?_mirrorBlock name p.block

theorem length_mirror (p : Program) : p.mirror.length = p.length := by
  simp [length, mirror, Instruction.mirrorBlock_eq_map]

theorem instructionCount_mirror (p : Program) : p.mirror.instructionCount = p.instructionCount :=
  Instruction.countBlock_mirrorBlock p.block

end Program

namespace Frame

def mirror (frame : Frame) : Frame :=
  ⟨Instruction.mirrorBlock frame.block, frame.pc⟩

theorem current?_mirror (frame : Frame) : frame.mirror.current? = frame.current?.map Instruction.mirror := by
  simp [current?, mirror, Instruction.mirrorBlock_eq_map]

end Frame

/-- The snapshot with its cursors exchanged, and with them those of the blocks being run. -/
def Snapshot.mirror (s : Snapshot) : Snapshot :=
  { s with moco := s.choco, choco := s.moco, stack := s.stack.map Frame.mirror }

def History.map {α β : Type} (f : α → β) (h : History α) : History β :=
  ⟨h.limit, h.entries.map f, h.size, by simp [h.size_eq]⟩

theorem History.map_push {α β : Type} (f : α → β) (h : History α) (a : α) :
    (h.push a).map f = (h.map f).push (f a) := by
  have hlength : (h.map f).entries.length = h.entries.length := by simp [map]
  apply History.ext
  · rw [limit_push]
    exact limit_push h a
  · have hentries : ((h.push a).map f).entries = (h.push a).entries.map f := rfl
    have hmapped : (h.map f).entries = h.entries.map f := rfl
    have hlimit : (h.map f).limit = h.limit := rfl
    rw [hentries, entries_push, entries_push, hlength, hlimit, hmapped]
    cases h.limit with
    | none => rfl
    | some limit =>
      dsimp only
      split
      · rfl
      · rw [List.map_take, List.map_cons]

theorem History.map_pop? {α β : Type} (f : α → β) (h : History α) :
    (h.map f).pop? = h.pop?.map (Prod.map f (map f)) := by
  obtain ⟨limit, entries, size, hsize⟩ := h
  cases entries with
  | nil => rfl
  | cons a rest => rfl

/-- The machine with the cursors exchanged in its program, in its snapshot and in its history. -/
def Machine.mirror (m : Machine) : Machine where
  toSnapshot := m.toSnapshot.mirror
  history := m.history.map Snapshot.mirror
  program := m.program.mirror

theorem Machine.currentLine_mirror (m : Machine) : m.mirror.currentLine = m.currentLine := by
  have hstack : m.mirror.stack = m.stack.map Frame.mirror := rfl
  have hprogram : m.mirror.program = m.program.mirror := rfl
  unfold currentLine
  rw [hstack, hprogram, List.getLast?_map, Program.length_mirror]
  cases m.stack.getLast? with
  | none => rfl
  | some frame => rfl

/-! ## Results alike -/

/-- The second result is the image of the first. Of a fault only the kind is kept. -/
inductive Image {α : Type} (f : α → α) : Except Fault α → Except Fault α → Prop
  | ok (a : α) : Image f (.ok a) (.ok (f a))
  | error {fault fault' : Fault} : fault'.kind = fault.kind → Image f (.error fault) (.error fault')

namespace Image

variable {α β : Type}

/-- Going on with the same value in both gives images if what follows does. -/
theorem bind {f : β → β} {x x' : Except Fault α} {next next' : α → Except Fault β} (hx : Image id x x')
    (hnext : ∀ a, Image f (next a) (next' a)) : Image f (x >>= next) (x' >>= next') := by
  cases hx with
  | ok a => exact hnext a
  | error hk => exact .error hk

theorem eq_ok {f : α → α} {x x' : Except Fault α} {a : α} (h : Image f x x') (hx : x = .ok a) :
    x' = .ok (f a) := by
  subst hx
  cases h
  rfl

theorem eq_error {f : α → α} {x x' : Except Fault α} {fault : Fault} (h : Image f x x') (hx : x = .error fault) :
    ∃ fault', x' = .error fault' ∧ fault'.kind = fault.kind := by
  subst hx
  cases h with
  | error hk => exact ⟨_, rfl, hk⟩

end Image

namespace Store

def mirror (st : Store) : Store :=
  { st with moco := st.choco, choco := st.moco }

theorem mirror_snapshot (st : Store) (stack : List Frame) (n : UInt64) :
    (st.snapshot stack n).mirror = st.mirror.snapshot (stack.map Frame.mirror) n := rfl

@[simp]
theorem array_mirror (st : Store) : st.mirror.array = st.array := rfl

@[simp]
theorem cursor_mirror (st : Store) (target : Cursor) : st.mirror.cursor target.other = st.cursor target := by
  cases target <;> rfl

@[simp]
theorem place_mirror (st : Store) (target : Cursor) (seat : Nat) :
    st.mirror.place target.other seat = (st.place target seat).mirror := by
  cases target <;> rfl

@[simp]
theorem write_mirror (st : Store) (target : Cursor) (value : Int64) :
    st.mirror.write target.other value = (st.write target value).mirror := by
  cases target <;> rfl

theorem seat_mirror (st : Store) (target : Cursor) : Image id (st.seat target) (st.mirror.seat target.other) := by
  unfold seat
  rw [array_mirror, cursor_mirror]
  cases st.array[st.cursor target]? with
  | none => exact .error rfl
  | some value => exact .ok value

theorem held_mirror (st : Store) (depth pc : Nat) : Image id (st.held depth pc) (st.mirror.held depth pc) := by
  unfold held mirror
  cases st.hand with
  | none => exact .error rfl
  | some value => exact .ok value

theorem jumpLabel?_mirror (st : Store) (o : Operation) : st.mirror.jumpLabel? o.mirror = st.jumpLabel? o := by
  cases o with
  | ifEnd target name => simp [Operation.mirror, jumpLabel?]
  | ifMeet name => simp [Operation.mirror, jumpLabel?, mirror, eq_comm]
  | _ => rfl

theorem test_mirror (st : Store) (depth pc : Nat) (c : Comparison) (target : Cursor) :
    Image id (st.test depth pc c target) (st.mirror.test depth pc c target.other) := by
  refine (held_mirror st depth pc).bind fun hand => ?_
  exact (seat_mirror st target).bind fun seat => .ok _

/-- The exchange of the seats under both cursors does not depend on which of them is written first: if both are the
same seat, so are the values. -/
theorem write_both {st : Store} {moco choco : Int64} (hmoco : st.seat .moco = .ok moco)
    (hchoco : st.seat .choco = .ok choco) :
    (st.mirror.write .moco moco).write .choco choco = ((st.write .moco choco).write .choco moco).mirror := by
  have harray : (st.array.set st.choco moco).set st.moco choco = (st.array.set st.moco choco).set st.choco moco := by
    by_cases hsame : st.moco = st.choco
    · have hleft : st.array[st.moco]? = some moco := seat_eq_ok_iff.1 hmoco
      have hright : st.array[st.choco]? = some choco := seat_eq_ok_iff.1 hchoco
      rw [hsame, hright] at hleft
      cases hleft
      rw [hsame]
    · exact List.set_comm _ _ (Ne.symm hsame)
  simp only [write, cursor, mirror, harray]

/-- An exchange of seats fails if one of the cursors is off the row, whichever it is. -/
theorem swap_error {st : Store} {target : Cursor} {fault : Fault} (h : st.seat target = .error fault)
    (depth pc : Nat) : ∃ fault', st.effect depth pc .swap = .error fault' ∧ fault'.kind = .pointerOutOfRange := by
  cases hmoco : st.seat .moco with
  | error fault' => exact ⟨fault', by simp only [effect, hmoco]; rfl, kind_of_seat_error hmoco⟩
  | ok moco =>
    cases target with
    | moco => cases h.symm.trans hmoco
    | choco => exact ⟨fault, by simp only [effect, hmoco, h]; rfl, kind_of_seat_error h⟩

/-- The mirror image of an exchange looks at the same two cursors in the other order. -/
theorem swap_mirror (st : Store) (depth pc : Nat) :
    Image mirror (st.effect depth pc .swap) (st.mirror.effect depth pc .swap) := by
  -- Which cursor is blamed depends on the order in which they are looked at, so only the kind of a fault is kept.
  have hfails : ∀ (target : Cursor) (fault : Fault), st.seat target = .error fault →
      Image mirror (st.effect depth pc .swap) (st.mirror.effect depth pc .swap) := by
    intro target fault h
    obtain ⟨fault', h', -⟩ := (seat_mirror st target).eq_error h
    obtain ⟨left, hleft, hkind⟩ := swap_error h depth pc
    obtain ⟨right, hright, hkind'⟩ := swap_error h' depth pc
    rw [hleft, hright]
    exact .error (hkind'.trans hkind.symm)
  cases hmoco : st.seat .moco with
  | error fault => exact hfails _ _ hmoco
  | ok moco =>
    cases hchoco : st.seat .choco with
    | error fault => exact hfails _ _ hchoco
    | ok choco =>
      have hmoco' : st.mirror.seat .choco = .ok moco := (seat_mirror st .moco).eq_ok hmoco
      have hchoco' : st.mirror.seat .moco = .ok choco := (seat_mirror st .choco).eq_ok hchoco
      have hleft : st.effect depth pc .swap = .ok ((st.write .moco choco).write .choco moco) := by
        simp only [effect, hmoco, hchoco]
        rfl
      have hright : st.mirror.effect depth pc .swap = .ok ((st.mirror.write .moco moco).write .choco choco) := by
        simp only [effect, hmoco', hchoco']
        rfl
      rw [hleft, hright, write_both hmoco hchoco]
      exact .ok _

theorem effect_mirror (st : Store) (depth pc : Nat) (o : Operation) :
    Image mirror (st.effect depth pc o) (st.mirror.effect depth pc o.mirror) := by
  cases o with
  | moveLeft target =>
    refine (seat_mirror st target).bind fun _ => ?_
    rw [cursor_mirror, place_mirror]
    split
    · exact .error rfl
    · exact .ok _
  | moveRight target =>
    refine (seat_mirror st target).bind fun _ => ?_
    rw [cursor_mirror, place_mirror, array_mirror]
    split
    · exact .ok _
    · exact .error rfl
  | moveToEnd target =>
    simp only [Operation.mirror, effect, array_mirror, cursor_mirror, place_mirror]
    split
    · exact .error rfl
    · exact .ok _
  | setPointer target index =>
    simp only [Operation.mirror, effect, array_mirror, place_mirror]
    split
    · exact .ok _
    · exact .error rfl
  | setValue target value =>
    simp only [Operation.mirror, effect, write_mirror]
    split
    · exact .error rfl
    · exact (seat_mirror st target).bind fun _ => .ok _
  | pick target => exact (seat_mirror st target).bind fun _ => .ok _
  | put target =>
    refine (seat_mirror st target).bind fun _ => ?_
    refine (held_mirror st depth pc).bind fun _ => ?_
    rw [write_mirror]
    exact .ok _
  | swap => exact swap_mirror st depth pc
  | swapWithNext target =>
    simp only [Operation.mirror, effect, array_mirror, cursor_mirror]
    split
    · exact .ok _
    · exact .error rfl
  | increment target =>
    refine (seat_mirror st target).bind fun _ => ?_
    rw [write_mirror]
    exact .ok _
  | decrement target =>
    refine (seat_mirror st target).bind fun _ => ?_
    rw [write_mirror]
    exact .ok _
  | ifEnd target name => exact .ok st
  | ifMeet name => exact .ok st
  | jump name => exact .ok st
  | label name => exact .ok st
  | wait => exact .ok st
  | unknown => exact .error rfl

end Store

/-! ## Steps alike -/

/-- The outcomes are the same but for the data of a fault. -/
inductive Outcome.Alike : Outcome → Outcome → Prop
  | advanced : Alike .advanced .advanced
  | completed : Alike .completed .completed
  | failed {fault fault' : Fault} : fault'.kind = fault.kind → Alike (.failed fault) (.failed fault')

/-- No fault but one says that nothing is left to run, so the flags of outcomes that are alike are the same. -/
theorem Outcome.Alike.flags {outcome outcome' : Outcome} (h : outcome.Alike outcome') :
    outcome'.isSuccess = outcome.isSuccess ∧ outcome'.isCompleted = outcome.isCompleted ∧
      outcome'.fault?.map Fault.kind = outcome.fault?.map Fault.kind := by
  cases h with
  | advanced => exact ⟨rfl, rfl, rfl⟩
  | completed => exact ⟨rfl, rfl, rfl⟩
  | @failed fault fault' hk =>
    refine ⟨rfl, ?_, congrArg some hk⟩
    cases fault <;> cases fault' <;> first | rfl | cases hk

variable {program : Program} {s s' : Snapshot} {outcome : Outcome}

/-- Every case of a step has its mirror image. -/
theorem Transition.mirror (h : Transition program s outcome s') :
    ∃ outcome', Transition program.mirror s.mirror outcome' s'.mirror ∧ outcome.Alike outcome' := by
  -- The frames around the innermost one are as many as before, and its instruction is the mirror image.
  have hcurrent : ∀ {frame : Frame} {i : Instruction}, frame.current? = some i →
      frame.mirror.current? = some i.mirror := by
    intro frame i hc
    rw [Frame.current?_mirror, hc]
    rfl
  have hend : ∀ {frame : Frame}, frame.current? = none → frame.mirror.current? = none := by
    intro frame hc
    rw [Frame.current?_mirror, hc]
    rfl
  cases h with
  | idle =>
    rw [Store.mirror_snapshot]
    exact ⟨_, .idle, .failed rfl⟩
  | complete hc =>
    rw [Store.mirror_snapshot, Store.mirror_snapshot]
    exact ⟨_, .complete (hend hc), .completed⟩
  | leave hc =>
    rw [Store.mirror_snapshot, Store.mirror_snapshot]
    exact ⟨_, .leave (hend hc), .advanced⟩
  | @operate st st' frame outer n o hc hl he =>
    rw [← Store.jumpLabel?_mirror] at hl
    have he' := (st.effect_mirror outer.length frame.pc o).eq_ok he
    rw [← List.length_map Frame.mirror] at he'
    rw [Store.mirror_snapshot, Store.mirror_snapshot]
    exact ⟨_, .operate (hcurrent hc) hl he', .advanced⟩
  | @jump st frame outer n o label place hc hl hr =>
    rw [← Store.jumpLabel?_mirror] at hl
    rw [← Program.resolve_mirror] at hr
    rw [Store.mirror_snapshot, Store.mirror_snapshot]
    exact ⟨_, .jump (hcurrent hc) hl hr, .advanced⟩
  | @enter st frame outer n c target body hc ht =>
    have ht' := (st.test_mirror outer.length frame.pc c target).eq_ok ht
    rw [← List.length_map Frame.mirror] at ht'
    rw [Store.mirror_snapshot, Store.mirror_snapshot]
    exact ⟨_, .enter (hcurrent hc) ht', .advanced⟩
  | @pass st frame outer n c target body hc ht =>
    have ht' := (st.test_mirror outer.length frame.pc c target).eq_ok ht
    rw [← List.length_map Frame.mirror] at ht'
    rw [Store.mirror_snapshot, Store.mirror_snapshot]
    exact ⟨_, .pass (hcurrent hc) ht', .advanced⟩
  | @stuck st frame outer n o fault hc hl he =>
    rw [← Store.jumpLabel?_mirror] at hl
    obtain ⟨fault', he', hk⟩ := (st.effect_mirror outer.length frame.pc o).eq_error he
    rw [← List.length_map Frame.mirror] at he'
    rw [Store.mirror_snapshot]
    exact ⟨_, .stuck (hcurrent hc) hl he', .failed hk⟩
  | @lost st frame outer n o label hc hl hr =>
    rw [← Store.jumpLabel?_mirror] at hl
    rw [← Program.resolve_mirror] at hr
    rw [Store.mirror_snapshot]
    exact ⟨_, .lost (hcurrent hc) hl hr, .failed rfl⟩
  | @undecided st frame outer n c target body fault hc ht =>
    obtain ⟨fault', ht', hk⟩ := (st.test_mirror outer.length frame.pc c target).eq_error ht
    rw [← List.length_map Frame.mirror] at ht'
    rw [Store.mirror_snapshot]
    exact ⟨_, .undecided (hcurrent hc) ht', .failed hk⟩

namespace Machine

/-- A step of the mirror image is the mirror image of the step. -/
theorem step_mirror (m : Machine) : m.step.1.Alike m.mirror.step.1 ∧ m.mirror.step.2 = m.step.2.mirror := by
  obtain ⟨outcome', h, halike⟩ := (Transition.of_step m.program m.toSnapshot).mirror
  have hstep : m.mirror.toSnapshot.step m.mirror.program = (outcome', m.step.2.toSnapshot.mirror) := h.eq_step
  refine ⟨?_, ?_⟩
  · rw [fst_step m.mirror, hstep]
    exact halike
  · have hhistory : m.mirror.history.push m.mirror.toSnapshot = m.step.2.mirror.history :=
      (History.map_push Snapshot.mirror m.history m.toSnapshot).symm
    show { m.mirror with
      toSnapshot := (m.mirror.toSnapshot.step m.mirror.program).2
      history := m.mirror.history.push m.mirror.toSnapshot } = m.step.2.mirror
    rw [hstep, hhistory]
    rfl

/-- So is taking a step back. -/
theorem rewind?_mirror (m : Machine) : m.mirror.rewind? = m.rewind?.map mirror := by
  have hpop : m.mirror.history.pop? = _ := m.history.map_pop? Snapshot.mirror
  unfold rewind?
  rw [hpop]
  cases m.history.pop? with
  | none => rfl
  | some newest => rfl

end Machine

end SeatMachine
