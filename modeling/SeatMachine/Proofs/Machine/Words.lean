import SeatMachine.Proofs.Machine.Failure
/-!
# The machine on words

A step counts with numbers that do not end and looks only at seats that are there. Here it is done once more on
words: a number after the greatest one is out of reach or zero, as `Overflow` says, and an index outside the row has
no value. A step can then have no result at all.

`stepOnWords_of_transition` follows the cases of a step: on words it comes to the same, but for one instruction. To
exchange a seat with its neighbour is the only one that counts on from a cursor before it has looked whether the
cursor is on the row. `result_unless_past_last` is the main theorem, and `swap_past_last_number` is a state in which the
instruction has no result.
-/
namespace SeatMachine

/-! ## Numbers and rows -/

/-- Where counting leads beyond the ends of a word. -/
inductive Overflow where
  /-- Nowhere: there is no result. -/
  | trap
  /-- On from the other end. -/
  | wrap
deriving DecidableEq, Repr

namespace Overflow

def next? (mode : Overflow) (n : Nat) : Option Nat :=
  if n < wordMax then some (n + 1)
  else
    match mode with
    | .trap => none
    | .wrap => some 0

def previous? (mode : Overflow) (n : Nat) : Option Nat :=
  if 0 < n then some (n - 1)
  else
    match mode with
    | .trap => none
    | .wrap => some wordMax

/-- One more than a count of steps. -/
def count? (mode : Overflow) (n : UInt64) : Option UInt64 :=
  (mode.next? n.toNat).map UInt64.ofNat

variable {mode : Overflow}

theorem next?_of_lt {n : Nat} (h : n < wordMax) : mode.next? n = some (n + 1) := by
  simp [next?, h]

theorem previous?_of_ne_zero {n : Nat} (h : n ≠ 0) : mode.previous? n = some (n - 1) := by
  simp [previous?, Nat.pos_of_ne_zero h]

theorem count?_of_lt {n : UInt64} (h : n.toNat < wordMax) : mode.count? n = some (n + 1) := by
  rw [count?, next?_of_lt h, Option.map_some, Option.some.injEq, UInt64.ofNat_add, UInt64.ofNat_toNat]
  rfl

end Overflow

namespace Store

variable {st : Store} {mode : Overflow} {depth pc : Nat} {target : Cursor}

/-! ## Operations -/

/-- The seat a cursor is on, which must be one of the row. -/
def position (st : Store) (target : Cursor) : ExceptT Fault Option Nat :=
  if st.cursor target < st.array.length then return st.cursor target
  else throw (.pointerOutOfRange target (st.cursor target) st.array.length)

def read? (st : Store) (index : Nat) : Option Int64 :=
  st.array[index]?

def write? (st : Store) (index : Nat) (value : Int64) : Option Store :=
  if index < st.array.length then some { st with array := st.array.set index value } else none

def exchange? (st : Store) (i j : Nat) : Option Store := do
  let x ← st.read? i
  let y ← st.read? j
  return { st with array := (st.array.set i y).set j x }

/-- What an operation makes of a store on words if it does not jump. -/
def effectOnWords (st : Store) (mode : Overflow) (depth pc : Nat) : Operation → ExceptT Fault Option Store
  | .moveLeft target => do
    let seat ← st.position target
    if seat = 0 then throw (.cannotMove target seat)
    return st.place target (← mode.previous? seat)
  | .moveRight target => do
    let seat ← st.position target
    let next ← mode.next? seat
    if st.array.length ≤ next then throw (.cannotMove target seat)
    return st.place target next
  | .moveToEnd target =>
    match st.array.length with
    | 0 => throw (.pointerOutOfRange target (st.cursor target) 0)
    | last + 1 => return st.place target last
  | .setPointer target index =>
    if 0 ≤ index.toInt ∧ index.toInt < st.array.length then return st.place target index.toInt.toNat
    else throw (.indexOutOfRange index st.array.length)
  | .setValue target value => do
    if value < 0 then throw (.negativeValue value depth pc)
    let seat ← st.position target
    st.write? seat value
  | .pick target => do
    let seat ← st.position target
    return { st with hand := some (← st.read? seat) }
  | .put target => do
    let seat ← st.position target
    let value ← MonadExcept.ofExcept (st.held depth pc)
    st.write? seat value
  | .swap => do
    let moco ← st.position .moco
    let choco ← st.position .choco
    st.exchange? moco choco
  | .swapWithNext target => do
    let next ← mode.next? (st.cursor target)
    if st.array.length ≤ next then throw (.cannotSwapWithNext (st.cursor target) st.array.length)
    st.exchange? (st.cursor target) next
  | .increment target => do
    let seat ← st.position target
    st.write? seat ((← st.read? seat) + 1)
  | .decrement target => do
    let seat ← st.position target
    st.write? seat ((← st.read? seat) - 1)
  | .ifEnd _ _ | .ifMeet _ | .jump _ | .label _ | .wait => return st
  | .unknown => throw (.unknownInstruction depth pc)

/-- Whether a conditional is entered, on words. -/
def testOnWords (st : Store) (depth pc : Nat) (comparison : Comparison) (target : Cursor) :
    ExceptT Fault Option Bool := do
  let hand ← MonadExcept.ofExcept (st.held depth pc)
  let seat ← st.position target
  return comparison.holds hand (← st.read? seat)

theorem run_position_of_lt (h : st.cursor target < st.array.length) :
    (st.position target).run = some (.ok (st.cursor target)) := by
  simp [position, h]

theorem run_position_of_le (h : st.array.length ≤ st.cursor target) :
    (st.position target).run = some (.error (.pointerOutOfRange target (st.cursor target) st.array.length)) := by
  simp [position, Nat.not_lt.2 h]

theorem run_some_bind {α β : Type} (a : α) (next : α → ExceptT Fault Option β) :
    (liftM (some a) >>= next).run = (next a).run := rfl

/-- What follows a look at the position of a cursor follows a look at its seat just as well, if it comes to the same on
the row. -/
theorem run_position_bind {α : Type} {next : Nat → ExceptT Fault Option α} {next' : Int64 → Except Fault α}
    (h : ∀ value, st.array[st.cursor target]? = some value → (next (st.cursor target)).run = some (next' value)) :
    (st.position target >>= next).run = some (st.seat target >>= next') := by
  by_cases hin : st.cursor target < st.array.length
  · rw [seat_of_lt hin, ExceptT.run_bind, run_position_of_lt hin]
    exact h _ (List.getElem?_eq_getElem hin)
  · have hout := Nat.le_of_not_lt hin
    rw [seat_of_le hout, ExceptT.run_bind, run_position_of_le hout]
    rfl

theorem write?_of_lt {index : Nat} {value : Int64} (h : index < st.array.length) :
    st.write? index value = some { st with array := st.array.set index value } := by
  simp [write?, h]

theorem exchange?_of_lt {i j : Nat} {x y : Int64} (hi : st.array[i]? = some x) (hj : st.array[j]? = some y) :
    st.exchange? i j = some { st with array := (st.array.set i y).set j x } := by
  simp [exchange?, read?, hi, hj]

/-- An operation comes to the same on words, if the row is no longer than a word can count and no cursor that is to be
counted on from is at the greatest number. -/
theorem run_effectOnWords (hlength : st.array.length ≤ wordMax) {o : Operation}
    (hswap : ∀ target, o = .swapWithNext target → st.cursor target < wordMax) :
    (st.effectOnWords mode depth pc o).run = some (st.effect depth pc o) := by
  cases o with
  | moveLeft target =>
    refine run_position_bind fun value _ => ?_
    by_cases hzero : st.cursor target = 0
    · simp only [hzero, if_true]
      rfl
    · simp only [hzero, if_false, Overflow.previous?_of_ne_zero hzero]
      rfl
  | moveRight target =>
    refine run_position_bind fun value hvalue => ?_
    have hlt := (List.getElem?_eq_some_iff.1 hvalue).1
    simp only [Overflow.next?_of_lt (Nat.lt_of_lt_of_le hlt hlength)]
    by_cases hnext : st.cursor target + 1 < st.array.length
    · rw [run_some_bind, if_neg (Nat.not_le.2 hnext), if_pos hnext]
      rfl
    · rw [run_some_bind, if_pos (Nat.not_lt.1 hnext), if_neg hnext]
      rfl
  | moveToEnd target =>
    simp only [effectOnWords, effect]
    cases st.array <;> rfl
  | setPointer target index =>
    simp only [effectOnWords, effect]
    split <;> rfl
  | setValue target value =>
    by_cases hneg : value < 0
    · simp only [effectOnWords, effect, hneg, if_true]
      rfl
    · simp only [effectOnWords, effect, hneg, if_false]
      refine run_position_bind fun _ hseat => ?_
      rw [write?_of_lt (List.getElem?_eq_some_iff.1 hseat).1]
      rfl
  | pick target =>
    refine run_position_bind fun value hvalue => ?_
    simp only [read?, hvalue]
    rfl
  | put target =>
    refine run_position_bind fun value hvalue => ?_
    cases st.held depth pc with
    | error fault => rfl
    | ok held =>
      simp only [write?_of_lt (List.getElem?_eq_some_iff.1 hvalue).1]
      rfl
  | swap =>
    refine run_position_bind fun moco hmoco => run_position_bind fun choco hchoco => ?_
    rw [exchange?_of_lt hmoco hchoco]
    rfl
  | swapWithNext target =>
    by_cases hnext : st.cursor target + 1 < st.array.length
    · have hhere := List.getElem?_eq_getElem (Nat.lt_of_succ_lt hnext)
      have hthere := List.getElem?_eq_getElem hnext
      simp only [effectOnWords, effect, Overflow.next?_of_lt (hswap target rfl), hhere, hthere]
      rw [run_some_bind, if_neg (Nat.not_le.2 hnext), exchange?_of_lt hhere hthere]
      rfl
    · rw [effect_swapWithNext_of_le (Nat.not_lt.1 hnext)]
      simp only [effectOnWords, Overflow.next?_of_lt (hswap target rfl)]
      rw [run_some_bind, if_pos (Nat.not_lt.1 hnext)]
      rfl
  | increment target =>
    refine run_position_bind fun value hvalue => ?_
    simp only [read?, hvalue, write?_of_lt (List.getElem?_eq_some_iff.1 hvalue).1]
    rfl
  | decrement target =>
    refine run_position_bind fun value hvalue => ?_
    simp only [read?, hvalue, write?_of_lt (List.getElem?_eq_some_iff.1 hvalue).1]
    rfl
  | ifEnd target label => rfl
  | ifMeet label => rfl
  | jump label => rfl
  | label name => rfl
  | wait => rfl
  | unknown => rfl

/-- Counted on from the greatest number, the exchange has no result, or it starts again at the first seat: then there
is a result only if the row has no seat. -/
theorem run_effectOnWords_of_overrun (depth pc : Nat) (hlength : st.array.length ≤ wordMax)
    (hlast : st.cursor target = wordMax) :
    (st.effectOnWords .trap depth pc (.swapWithNext target)).run = none ∧
    (st.effectOnWords .wrap depth pc (.swapWithNext target)).run =
      if st.array = [] then some (.error (.cannotSwapWithNext (st.cursor target) st.array.length)) else none := by
  have hout : st.array[wordMax]? = none := List.getElem?_eq_none hlength
  constructor
  · simp only [effectOnWords, hlast, Overflow.next?, Nat.lt_irrefl, if_false]
    rfl
  · simp only [effectOnWords, hlast, Overflow.next?, Nat.lt_irrefl, if_false]
    by_cases hempty : st.array = []
    · rw [run_some_bind, if_pos hempty, if_pos (by simp [hempty])]
      rfl
    · have hpos := List.length_pos_iff.2 hempty
      rw [run_some_bind, if_neg hempty, if_neg (Nat.not_le.2 hpos)]
      simp only [exchange?, read?, hout]
      rfl

/-- A conditional is decided on words as it is on numbers. -/
theorem run_testOnWords {c : Comparison} :
    (st.testOnWords depth pc c target).run = some (st.test depth pc c target) := by
  unfold testOnWords test
  cases st.held depth pc with
  | error fault => rfl
  | ok hand =>
    refine run_position_bind fun value hvalue => ?_
    simp only [read?, hvalue]
    rfl

end Store

/-! ## Steps -/

namespace Snapshot

variable {program : Program} {s s' : Snapshot} {outcome : Outcome} {mode : Overflow}

/-- The innermost block moves on by one place, and the step is counted. -/
def goOn (mode : Overflow) (st : Store) (frame : Frame) (outer : List Frame) (n : UInt64) :
    Option (Outcome × Snapshot) := do
  let pc ← mode.next? frame.pc
  return (.advanced, st.snapshot (⟨frame.block, pc⟩ :: outer) (← mode.count? n))

/-- Another stack takes the place of the present one, and the step is counted. -/
def goTo (mode : Overflow) (st : Store) (stack : List Frame) (n : UInt64) : Option (Outcome × Snapshot) := do
  return (.advanced, st.snapshot stack (← mode.count? n))

/-- Runs an instruction of the innermost block on words. -/
def runOnWords (mode : Overflow) (program : Program) (st : Store) (frame : Frame) (outer : List Frame) (n : UInt64) :
    Instruction → Option (Outcome × Snapshot)
  | .op o =>
    match st.jumpLabel? o with
    | some label =>
      match program.resolve label with
      | some place => goTo mode st [⟨program.block, place⟩] n
      | none => some (.failed (.labelNotFound label outer.length frame.pc), st.snapshot (frame :: outer) n)
    | none =>
      match (st.effectOnWords mode outer.length frame.pc o).run with
      | some (.ok st') => goOn mode st' frame outer n
      | some (.error fault) => some (.failed fault, st.snapshot (frame :: outer) n)
      | none => none
  | .branch c target body =>
    match (st.testOnWords outer.length frame.pc c target).run with
    | some (.ok true) => goTo mode st (⟨body, 0⟩ :: frame :: outer) n
    | some (.ok false) => goOn mode st frame outer n
    | some (.error fault) => some (.failed fault, st.snapshot (frame :: outer) n)
    | none => none

def stepOnWords (s : Snapshot) (mode : Overflow) (program : Program) : Option (Outcome × Snapshot) :=
  match s.stack with
  | [] => some (.failed .programCompleted, s)
  | frame :: outer =>
    match frame.current? with
    | some i => runOnWords mode program s.store frame outer s.stepCount i
    | none =>
      match outer with
      | [] => some (.completed, { s with stack := [] })
      | around :: rest => goOn mode s.store around rest s.stepCount

/-- The numbers of a snapshot fit into words, with room to go on for the places and the count of steps. -/
structure Fits (s : Snapshot) : Prop where
  array : s.array.length ≤ wordMax
  cursor : ∀ target, s.cursor target ≤ wordMax
  pc : ∀ frame ∈ s.stack, frame.pc < wordMax
  stepCount : s.stepCount.toNat < wordMax

/-- The current instruction is to exchange the seat with the greatest number with its neighbour. -/
def CountsPastLast (s : Snapshot) : Prop :=
  ∃ target, s.current? = some (.op (.swapWithNext target)) ∧ s.cursor target = wordMax

theorem isOverrun_iff : s.isOverrun = true ↔ s.CountsPastLast ∧ s.array ≠ [] := by
  unfold isOverrun CountsPastLast
  cases h : s.current? with
  | none => simp
  | some i =>
    cases i with
    | branch c target body => simp
    | op o => cases o <;> simp

theorem goOn_of_lt {st : Store} {frame : Frame} {outer : List Frame} {n : UInt64} (hpc : frame.pc < wordMax)
    (hn : n.toNat < wordMax) :
    goOn mode st frame outer n = some (.advanced, st.snapshot (frame.next :: outer) (n + 1)) := by
  simp only [goOn, Overflow.next?_of_lt hpc, Overflow.count?_of_lt hn]
  rfl

theorem goTo_of_lt {st : Store} {stack : List Frame} {n : UInt64} (hn : n.toNat < wordMax) :
    goTo mode st stack n = some (.advanced, st.snapshot stack (n + 1)) := by
  simp only [goTo, Overflow.count?_of_lt hn]
  rfl

theorem stepOnWords_of_current {st : Store} {frame : Frame} {outer : List Frame} {n : UInt64} {i : Instruction}
    (hc : frame.current? = some i) :
    (st.snapshot (frame :: outer) n).stepOnWords mode program = runOnWords mode program st frame outer n i := by
  simp only [stepOnWords, Store.snapshot, hc]
  rfl

/-- A snapshot whose numbers fit runs its operation on words as on numbers. -/
theorem Fits.run_effectOnWords {st : Store} {frame : Frame} {outer : List Frame} {n : UInt64} {o : Operation}
    (h : (st.snapshot (frame :: outer) n).Fits) (hlast : ¬ (st.snapshot (frame :: outer) n).CountsPastLast)
    (hc : frame.current? = some (.op o)) :
    (st.effectOnWords mode outer.length frame.pc o).run = some (st.effect outer.length frame.pc o) := by
  refine Store.run_effectOnWords h.array ?_
  rintro target rfl
  have hle := h.cursor target
  have hne : (st.snapshot (frame :: outer) n).cursor target ≠ wordMax := fun heq => hlast ⟨target, hc, heq⟩
  rw [Store.cursor_snapshot] at hle hne
  exact Nat.lt_of_le_of_ne hle hne

/-- A step of every kind comes to the same on words, unless it counts on from the greatest number. -/
theorem stepOnWords_of_transition (ht : Transition program s outcome s') (h : s.Fits) (hlast : ¬ s.CountsPastLast) :
    s.stepOnWords mode program = some (outcome, s') := by
  have hcount := h.stepCount
  cases ht with
  | idle => rfl
  | complete hc =>
    simp only [stepOnWords, Store.snapshot, hc]
  | @leave st frame outer rest n hc =>
    simp only [stepOnWords, Store.snapshot, hc]
    exact goOn_of_lt (h.pc outer (by simp [Store.snapshot])) hcount
  | @operate st st' frame outer n o hc hl he =>
    simp only [stepOnWords_of_current hc, runOnWords, hl, h.run_effectOnWords hlast hc, he]
    exact goOn_of_lt (h.pc frame (by simp [Store.snapshot])) hcount
  | jump hc hl hr =>
    simp only [stepOnWords_of_current hc, runOnWords, hl, hr]
    exact goTo_of_lt hcount
  | enter hc ht =>
    simp only [stepOnWords_of_current hc, runOnWords, Store.run_testOnWords, ht]
    exact goTo_of_lt hcount
  | @pass st frame outer n c target body hc ht =>
    simp only [stepOnWords_of_current hc, runOnWords, Store.run_testOnWords, ht]
    exact goOn_of_lt (h.pc frame (by simp [Store.snapshot])) hcount
  | stuck hc hl he =>
    simp only [stepOnWords_of_current hc, runOnWords, hl, h.run_effectOnWords hlast hc, he]
  | lost hc hl hr =>
    simp only [stepOnWords_of_current hc, runOnWords, hl, hr]
  | undecided hc ht =>
    simp only [stepOnWords_of_current hc, runOnWords, Store.run_testOnWords, ht]

theorem stepOnWords_eq_step (h : s.Fits) (hlast : ¬ s.CountsPastLast) :
    s.stepOnWords mode program = some (s.step program) :=
  stepOnWords_of_transition (Transition.of_step program s) h hlast

/-- At or beyond the last seat, the exchange with the next one fails. -/
theorem step_swapWithNext_of_le (program : Program) {target : Cursor}
    (hcurrent : s.current? = some (.op (.swapWithNext target)))
    (hle : s.array.length ≤ s.cursor target + 1) :
    s.step program = (.failed (.cannotSwapWithNext (s.cursor target) s.array.length), s) := by
  obtain ⟨st, frame, outer, n, rfl, hc⟩ := exists_frame_of_current hcurrent
  rw [Store.cursor_snapshot] at hle ⊢
  exact (Transition.stuck hc rfl (Store.effect_swapWithNext_of_le hle)).eq_step

/-- A step that counts on from the greatest number. -/
theorem stepOnWords_of_countsPastLast (h : s.Fits) (hlast : s.CountsPastLast) :
    s.stepOnWords .trap program = none ∧
      s.stepOnWords .wrap program = if s.array = [] then some (s.step program) else none := by
  obtain ⟨target, hcurrent, hcursor⟩ := hlast
  have hle : s.array.length ≤ s.cursor target + 1 := by
    rw [hcursor]
    exact Nat.le_succ_of_le h.array
  rw [step_swapWithNext_of_le program hcurrent hle]
  obtain ⟨st, frame, outer, n, rfl, hc⟩ := exists_frame_of_current hcurrent
  rw [Store.cursor_snapshot] at hcursor ⊢
  obtain ⟨htrap, hwrap⟩ := Store.run_effectOnWords_of_overrun outer.length frame.pc h.array hcursor
  constructor
  · simp only [stepOnWords_of_current hc, runOnWords, Store.jumpLabel?, htrap]
  · simp only [stepOnWords_of_current hc, runOnWords, Store.jumpLabel?, hwrap, Store.array_snapshot]
    by_cases hempty : st.array = []
    · simp only [hempty, if_true]
    · simp only [hempty, if_false]

end Snapshot

/-! ## Machines -/

namespace Machine

variable {m : Machine}

theorem step?_of_not_countsPastLast (h : ¬ m.CountsPastLast) : m.step? = some m.step := by
  have hnot : m.isOverrun = false := Bool.eq_false_iff.2 fun hover => h (Snapshot.isOverrun_iff.1 hover).1
  simp only [step?, hnot, Bool.false_eq_true, if_false]

theorem exists_step?_of_step {outcome : Outcome} {s : Snapshot} (h : ¬ m.CountsPastLast)
    (hstep : m.toSnapshot.step m.program = (outcome, s)) :
    ∃ m', m.step? = some (outcome, m') ∧ m'.toSnapshot = s := by
  refine ⟨m.step.2, ?_, by rw [toSnapshot_step, hstep]⟩
  rw [step?_of_not_countsPastLast h]
  exact congrArg some (Prod.ext (by rw [fst_step, hstep]) rfl)

theorem step?_of_countsPastLast (h : m.CountsPastLast) :
    m.step? = if m.array = [] then some m.step else none := by
  unfold step?
  by_cases hempty : m.array = []
  · have hnot : m.isOverrun = false := Bool.eq_false_iff.2 fun hover => (Snapshot.isOverrun_iff.1 hover).2 hempty
    simp only [hnot, hempty, if_true, Bool.false_eq_true, if_false]
  · simp only [Snapshot.isOverrun_iff.2 ⟨h, hempty⟩, hempty, if_true, if_false]

/-- **A step has a result in every state but one.** Take a machine in any state, also one that no run leads to, whose
numbers fit into words. A step is done without a number beyond the greatest one and without an index outside the row
just if it is not to exchange the seat with the greatest number with its neighbour. Where counting wraps around at the
ends of a word, the step that the machine does is this step on words, its lack of a result included. At or beyond the
last seat, but for that greatest number, the exchange fails, names the seat and the length, and changes nothing. -/
theorem result_unless_past_last (m : Machine) (h : m.Fits) :
    (m.stepOnWords .trap m.program = some (m.step.1, m.step.2.toSnapshot) ∧ m.step? = some m.step ↔
      ¬ m.CountsPastLast) ∧
    m.stepOnWords .wrap m.program = m.step?.map (fun result => (result.1, result.2.toSnapshot)) ∧
    ∀ target, m.current? = some (.op (.swapWithNext target)) → m.array.length ≤ m.cursor target + 1 →
      m.cursor target ≠ wordMax →
      ∃ m', m.step? = some (.failed (.cannotSwapWithNext (m.cursor target) m.array.length), m') ∧
        m'.toSnapshot = m.toSnapshot := by
  refine ⟨⟨?_, ?_⟩, ?_, ?_⟩
  · rintro ⟨htrap, -⟩ hlast
    rw [(Snapshot.stepOnWords_of_countsPastLast h hlast).1] at htrap
    cases htrap
  · intro hlast
    exact ⟨Snapshot.stepOnWords_eq_step h hlast, step?_of_not_countsPastLast hlast⟩
  · by_cases hlast : m.CountsPastLast
    · rw [(Snapshot.stepOnWords_of_countsPastLast h hlast).2, step?_of_countsPastLast hlast]
      by_cases hempty : m.array = []
      · simp only [hempty, if_true, Option.map_some]
        rfl
      · simp only [hempty, if_false, Option.map_none]
    · rw [step?_of_not_countsPastLast hlast]
      exact Snapshot.stepOnWords_eq_step h hlast
  · intro target hcurrent hle hne
    have hnot : ¬ m.CountsPastLast := by
      rintro ⟨other, hother, heq⟩
      rw [hcurrent] at hother
      cases hother
      exact hne heq
    exact exists_step?_of_step hnot (Snapshot.step_swapWithNext_of_le m.program hcurrent hle)

/-- The exchange at the last number before the greatest one, inside a body and with a full history. -/
theorem result_unless_past_last_before :
    let body : Block := [.op (.swapWithNext .choco)]
    let program : Program := ⟨[.branch .equal .moco body]⟩
    let m : Machine :=
      { array := [3, 4], choco := wordMax - 1, hand := some 3, stack := [⟨body, 0⟩, ⟨program.block, 0⟩], stepCount := 7
        history := .empty (some 0), program }
    m.Fits ∧ m.stepOnWords .trap m.program = some (m.step.1, m.step.2.toSnapshot) ∧
      ∃ m', m.step? = some (.failed (.cannotSwapWithNext (wordMax - 1) 2), m') ∧ m'.array = [3, 4] := by
  intro body program m
  have hfits : m.Fits := ⟨by decide, fun target => by cases target <;> decide, by decide, by decide⟩
  have hnot : ¬ m.CountsPastLast := by
    rintro ⟨target, hcurrent, hlast⟩
    cases hcurrent
    revert hlast
    decide
  obtain ⟨hresult, -, hswap⟩ := result_unless_past_last m hfits
  obtain ⟨m', hstep, hsame⟩ := hswap .choco rfl (by decide) (by decide)
  exact ⟨hfits, (hresult.2 hnot).1, m', hstep, by rw [hsame]⟩

/-- **The exchange has no result at the greatest number.** The numbers fit into words, and the cursor is beyond the last
seat, but there is no result, neither a fault nor a row: the number after the greatest one is out of reach, or it is
that of the first seat, and the exchange reaches for the other one. -/
theorem swap_past_last_number :
    let block : Block := [.op (.swapWithNext .moco)]
    let m : Machine :=
      { array := [1, 2], moco := wordMax, stack := [⟨block, 0⟩], history := .empty none, program := ⟨block⟩ }
    m.Fits ∧ m.array.length ≤ m.cursor .moco + 1 ∧ m.step? = none ∧
      m.stepOnWords .trap m.program = none ∧ m.stepOnWords .wrap m.program = none := by
  intro block m
  have hfits : m.Fits := ⟨by decide, fun target => by cases target <;> decide, by decide, by decide⟩
  exact ⟨hfits, by decide, by decide, by decide, by decide⟩

end Machine

end SeatMachine
