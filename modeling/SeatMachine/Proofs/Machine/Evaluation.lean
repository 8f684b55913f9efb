import SeatMachine.Proofs.Machine.Course
import SeatMachine.Proofs.Machine.Transition
/-!
# Evaluation

The language has a structured meaning that knows nothing of stacks: an instruction turns a store into
a store, runs through the bodies it enters, and ends normally, with a jump or with a fault. A jump or a
fault ends all bodies around it. The cost counts the steps: one for an operation, one for a
conditional, and one more to leave a body that was entered.

`realizes_instruction` and `realizes_block` show, by induction on the instruction, that the machine
does the same with its stack of frames, in exactly as many steps; `after_cost_evaluate` says so of an
instruction at the top of a program.
-/
namespace SeatMachine

/-- How an evaluation ends. -/
inductive Flow where
  | normal
  /-- All bodies are left for this place of the program. -/
  | jump (place : Nat)
  | failed (fault : Fault)
deriving DecidableEq, Repr

/-- What an evaluation comes to: how it ends, the store it leaves, and the number of steps done. -/
structure Evaluation where
  flow : Flow
  store : Store
  cost : Nat
deriving DecidableEq, Repr

namespace Evaluation

/-- One step that changes nothing. -/
def tick (st : Store) : Evaluation :=
  ⟨.normal, st, 1⟩

/-- Goes on after a normal end; anything else ends the whole. -/
def andThen (ev : Evaluation) (next : Store → Evaluation) : Evaluation :=
  match ev.flow with
  | .normal => ⟨(next ev.store).flow, (next ev.store).store, ev.cost + (next ev.store).cost⟩
  | _ => ev

theorem cost_andThen_le (ev : Evaluation) (next : Store → Evaluation) :
    (ev.andThen next).cost ≤ ev.cost + (next ev.store).cost := by
  unfold andThen
  split
  · exact Nat.le_refl _
  · exact Nat.le_add_right _ _

end Evaluation

namespace Store

def evaluate (st : Store) (program : Program) (depth pc : Nat) (o : Operation) : Evaluation :=
  match st.jumpLabel? o with
  | some label =>
    match program.resolve label with
    | some place => ⟨.jump place, st, 1⟩
    | none => ⟨.failed (.labelNotFound label depth pc), st, 0⟩
  | none =>
    match st.effect depth pc o with
    | .ok st' => ⟨.normal, st', 1⟩
    | .error fault => ⟨.failed fault, st, 0⟩

theorem cost_evaluate_le (st : Store) (program : Program) (depth pc : Nat) (o : Operation) :
    (st.evaluate program depth pc o).cost ≤ 1 := by
  unfold evaluate
  split <;> split <;> simp

end Store

namespace Instruction

mutual

/-- Evaluates an instruction at `pc` inside `depth` bodies. -/
def evaluate (program : Program) : (depth pc : Nat) → Store → Instruction → Evaluation
  | depth, pc, st, .op o => st.evaluate program depth pc o
  | depth, pc, st, .branch c target body =>
    match st.test depth pc c target with
    | .error fault => ⟨.failed fault, st, 0⟩
    | .ok false => .tick st
    | .ok true =>
      ((Evaluation.tick st).andThen fun st => evaluateBlock program (depth + 1) 0 st body).andThen
        .tick
termination_by structural _ _ _ i => i

/-- Evaluates the instructions of a block from `pc` on, inside `depth` bodies. -/
def evaluateBlock (program : Program) : (depth pc : Nat) → Store → Block → Evaluation
  | _, _, st, [] => ⟨.normal, st, 0⟩
  | depth, pc, st, i :: rest =>
    (evaluate program depth pc st i).andThen fun st => evaluateBlock program depth (pc + 1) st rest
termination_by structural _ _ _ block => block

end

mutual

/-- An instruction takes at most two steps for each instruction in it. -/
theorem cost_evaluate_le (program : Program) :
    ∀ (depth pc : Nat) (st : Store) (i : Instruction), (evaluate program depth pc st i).cost ≤ 2 * i.count
  | depth, pc, st, .op o => by
    have := st.cost_evaluate_le program depth pc o
    rw [evaluate, count]
    omega
  | depth, pc, st, .branch c target body => by
    rw [evaluate, count]
    split
    · exact Nat.zero_le _
    · simp only [Evaluation.tick]; omega
    · -- entering and leaving are the two steps of the conditional itself
      have hbody := cost_evaluateBlock_le program (depth + 1) 0 st body
      have hin := (Evaluation.tick st).cost_andThen_le fun st => evaluateBlock program (depth + 1) 0 st body
      have hout := ((Evaluation.tick st).andThen fun st =>
        evaluateBlock program (depth + 1) 0 st body).cost_andThen_le .tick
      simp only [Evaluation.tick] at hin hout ⊢
      omega

theorem cost_evaluateBlock_le (program : Program) :
    ∀ (depth pc : Nat) (st : Store) (block : Block),
      (evaluateBlock program depth pc st block).cost ≤ 2 * countBlock block
  | _, _, _, [] => by rw [evaluateBlock]; exact Nat.zero_le _
  | depth, pc, st, i :: rest => by
    rw [evaluateBlock, countBlock]
    have hi := cost_evaluate_le program depth pc st i
    have hrest := cost_evaluateBlock_le program depth (pc + 1) (evaluate program depth pc st i).store rest
    have h := (evaluate program depth pc st i).cost_andThen_le fun st =>
      evaluateBlock program depth (pc + 1) st rest
    omega

end

end Instruction

/-! ## Successful steps in a row -/

namespace Snapshot

theorem after_add (program : Program) (s : Snapshot) (m n : Nat) :
    s.after program (m + n) = (s.after program m).after program n := by
  induction n with
  | zero => rfl
  | succ n ih => rw [Nat.add_succ, after, after, ih]

/-- So many steps in a row are done, and lead to the other snapshot. -/
structure Advances (program : Program) (n : Nat) (s s' : Snapshot) : Prop where
  after_eq : s.after program n = s'
  advanced : ∀ j, j < n → ((s.after program j).step program).1 = .advanced

namespace Advances

variable {program : Program} {m n : Nat} {s s' s'' : Snapshot}

theorem refl (program : Program) (s : Snapshot) : Advances program 0 s s :=
  ⟨rfl, fun _ h => absurd h (Nat.not_lt_zero _)⟩

theorem one (h : Transition program s .advanced s') : Advances program 1 s s' := by
  refine ⟨?_, fun j hj => ?_⟩
  · rw [after, after, h.eq_step]
  · have : j = 0 := by omega
    subst this
    rw [after, h.eq_step]

theorem trans (h : Advances program m s s') (h' : Advances program n s' s'') :
    Advances program (m + n) s s'' := by
  refine ⟨?_, fun j hj => ?_⟩
  · rw [after_add, h.after_eq, h'.after_eq]
  · by_cases hm : j < m
    · exact h.advanced j hm
    · have := h'.advanced (j - m) (by omega)
      rw [← h.after_eq, ← after_add] at this
      rwa [show m + (j - m) = j by omega] at this

/-- Every successful step is counted. -/
theorem stepCount_eq (h : Advances program n s s') : s'.stepCount = s.stepCount + UInt64.ofNat n := by
  obtain ⟨rfl, ha⟩ := h
  induction n with
  | zero => simp [after]
  | succ n ih =>
    have hstep := Transition.of_step program (s.after program n)
    rw [ha n (by omega)] at hstep
    have hn := ih fun j hj => ha j (by omega)
    rw [after, hstep.stepCount_of_advanced, hn, UInt64.add_assoc]
    simp

/-- The count is exact as long as it does not overflow. -/
theorem toNat_stepCount_eq (h : Advances program n s s') (hn : s.stepCount.toNat + n < UInt64.size) :
    s'.stepCount.toNat = s.stepCount.toNat + n := by
  rw [h.stepCount_eq, UInt64.toNat_add, UInt64.toNat_ofNat']
  simp only [UInt64.size] at hn
  omega

end Advances

end Snapshot

/-! ## The machine realizes evaluations -/

/-- What an evaluation that ends so asks of the machine: to stand at the frames that come `next`, at
the place of a jump, or at a step that fails. -/
def Flow.Reached (program : Program) (next : List Frame) (s : Snapshot) : Flow → Prop
  | .normal => s.stack = next
  | .jump place => s.stack = [⟨program.block, place⟩]
  | .failed fault => s.step program = (.failed fault, s)

/-- From a snapshot, the machine comes to the store of an evaluation in as many successful steps as it
costs. -/
def Realizes (program : Program) (s : Snapshot) (ev : Evaluation) (next : List Frame) : Prop :=
  ∃ s', s.Advances program ev.cost s' ∧ s'.store = ev.store ∧ ev.flow.Reached program next s'

theorem realizes_andThen {program : Program} {s : Snapshot} {ev : Evaluation}
    {next : Store → Evaluation} {frames : List Frame} (mid : List Frame) (h : Realizes program s ev mid)
    (hnext : ∀ n, Realizes program (ev.store.snapshot mid n) (next ev.store) frames) :
    Realizes program s (ev.andThen next) frames := by
  obtain ⟨s', ha, hst, hr⟩ := h
  unfold Evaluation.andThen
  cases he : ev.flow with
  | normal =>
    rw [he] at hr
    have hs : s' = ev.store.snapshot mid s'.stepCount := by rw [← hst, ← hr]; rfl
    obtain ⟨s'', ha', hst', hr'⟩ := hnext s'.stepCount
    rw [← hs] at ha'
    exact ⟨s'', ha.trans ha', hst', hr'⟩
  | jump place => exact ⟨s', ha, hst, by rw [he] at hr ⊢; exact hr⟩
  | failed fault => exact ⟨s', ha, hst, by rw [he] at hr ⊢; exact hr⟩

theorem realizes_operation {program : Program} {frame : Frame} {o : Operation}
    (hc : frame.current? = some (.op o)) (st : Store) (outer : List Frame) (n : UInt64) :
    Realizes program (st.snapshot (frame :: outer) n) (st.evaluate program outer.length frame.pc o)
      (frame.next :: outer) := by
  unfold Store.evaluate
  cases hl : st.jumpLabel? o with
  | some label =>
    dsimp only
    cases hr : program.resolve label with
    | some place => exact ⟨_, .one (.jump hc hl hr), rfl, rfl⟩
    | none => exact ⟨_, .refl _ _, rfl, (Transition.lost hc hl hr).eq_step⟩
  | none =>
    cases he : st.effect outer.length frame.pc o with
    | ok st' => exact ⟨_, .one (.operate hc hl he), rfl, rfl⟩
    | error fault => exact ⟨_, .refl _ _, rfl, (Transition.stuck hc hl he).eq_step⟩

theorem realizes_leave {program : Program} (st : Store) (body : Block) (frame : Frame)
    (outer : List Frame) (n : UInt64) :
    Realizes program (st.snapshot (⟨body, body.length⟩ :: frame :: outer) n) (.tick st)
      (frame.next :: outer) := by
  have hend : Frame.current? ⟨body, body.length⟩ = none := List.getElem?_eq_none (Nat.le_refl _)
  exact ⟨_, .one (.leave hend), rfl, rfl⟩

mutual

theorem realizes_instruction (program : Program) :
    ∀ (i : Instruction) (st : Store) (frame : Frame) (outer : List Frame) (n : UInt64),
      frame.current? = some i →
      Realizes program (st.snapshot (frame :: outer) n)
        (i.evaluate program outer.length frame.pc st) (frame.next :: outer)
  | .op o, st, frame, outer, n, hc => by
    rw [Instruction.evaluate]
    exact realizes_operation hc st outer n
  | .branch c target body, st, frame, outer, n, hc => by
    rw [Instruction.evaluate]
    cases ht : st.test outer.length frame.pc c target with
    | error fault => exact ⟨_, .refl _ _, rfl, (Transition.undecided hc ht).eq_step⟩
    | ok taken =>
      cases taken with
      | false => exact ⟨_, .one (.pass hc ht), rfl, rfl⟩
      | true =>
        -- in, through the body, and out
        refine realizes_andThen (⟨body, body.length⟩ :: frame :: outer) ?_
          (fun n => realizes_leave _ body frame outer n)
        refine realizes_andThen (⟨body, 0⟩ :: frame :: outer) ⟨_, .one (.enter hc ht), rfl, rfl⟩ ?_
        intro n
        exact realizes_block program body st ⟨body, 0⟩ (frame :: outer) n rfl (Nat.zero_le _)

/-- The rest of a block is run from wherever the frame stands. -/
theorem realizes_block (program : Program) :
    ∀ (rest : Block) (st : Store) (frame : Frame) (outer : List Frame) (n : UInt64),
      frame.block.drop frame.pc = rest → frame.pc ≤ frame.block.length →
      Realizes program (st.snapshot (frame :: outer) n)
        (Instruction.evaluateBlock program outer.length frame.pc st rest)
        (⟨frame.block, frame.block.length⟩ :: outer)
  | [], st, frame, outer, n, hd, hle => by
    have hpc : frame.pc = frame.block.length := by
      have := List.drop_eq_nil_iff.1 hd
      omega
    rw [Instruction.evaluateBlock]
    exact ⟨_, .refl _ _, rfl, by rw [← hpc]; rfl⟩
  | i :: rest, st, frame, outer, n, hd, _ => by
    have hc : frame.current? = some i := by
      rw [Frame.current?, ← List.head?_drop, hd]; rfl
    have hrest : frame.next.block.drop frame.next.pc = rest := by
      have := congrArg List.tail hd
      rwa [List.tail_drop] at this
    rw [Instruction.evaluateBlock]
    refine realizes_andThen (frame.next :: outer) (realizes_instruction program i st frame outer n hc) ?_
    intro n
    exact realizes_block program rest _ frame.next outer n hrest (Frame.pc_lt hc)

end

/-- **The machine implements the structured meaning.** A machine at an instruction of its program,
inside no body, does as many successful steps as evaluating the instruction costs, which is at most two
for each instruction in it. It then has the store of the evaluation and stands alone at the next
instruction, or at the place of a jump; or, where the evaluation fails, the next step fails with the
same fault and changes nothing. -/
theorem after_cost_evaluate (m : Machine) (i : Nat) (hs : m.stack = [⟨m.program.block, i⟩])
    (hi : i < m.program.block.length) :
    let instruction := m.program.block[i]
    let ev := instruction.evaluate m.program 0 i m.store
    let m' := m.after ev.cost
    ev.cost ≤ 2 * instruction.count ∧
      (∀ j, j < ev.cost → (m.after j).step.1 = .advanced) ∧
      m'.store = ev.store ∧
      m'.stepCount = m.stepCount + UInt64.ofNat ev.cost ∧
      (m.stepCount.toNat + ev.cost < UInt64.size →
        m'.stepCount.toNat = m.stepCount.toNat + ev.cost) ∧
      match ev.flow with
      | .normal => m'.stack = [⟨m.program.block, i + 1⟩]
      | .jump place => m'.stack = [⟨m.program.block, place⟩]
      | .failed fault => m'.step.1 = .failed fault ∧ m'.step.2.toSnapshot = m'.toSnapshot := by
  intro instruction ev m'
  have hc : Frame.current? ⟨m.program.block, i⟩ = some instruction := List.getElem?_eq_getElem hi
  have hm : m.store.snapshot [⟨m.program.block, i⟩] m.stepCount = m.toSnapshot := by rw [← hs]; rfl
  obtain ⟨s', ha, hst, hr⟩ := realizes_instruction m.program instruction m.store _ [] m.stepCount hc
  rw [hm] at ha
  have hsnap : m'.toSnapshot = s' := (m.toSnapshot_after _).trans ha.after_eq
  refine ⟨instruction.cost_evaluate_le m.program 0 i m.store, fun j hj => ?_, ?_, ?_, fun hlt => ?_, ?_⟩
  · rw [Machine.fst_step, Machine.toSnapshot_after, Machine.program_after]
    exact ha.advanced j hj
  · rw [hsnap]; exact hst
  · rw [hsnap]; exact ha.stepCount_eq
  · rw [hsnap]; exact ha.toNat_stepCount_eq hlt
  · have hr' : ev.flow.Reached m.program [⟨m.program.block, i + 1⟩] m'.toSnapshot := by
      rw [hsnap]; exact hr
    cases he : ev.flow with
    | normal => rw [he] at hr'; exact hr'
    | jump place => rw [he] at hr'; exact hr'
    | failed fault =>
      rw [he] at hr'
      have hstep : m'.toSnapshot.step m'.program = (.failed fault, m'.toSnapshot) := by
        rw [Machine.program_after]; exact hr'
      exact ⟨by rw [Machine.fst_step, hstep], by rw [Machine.toSnapshot_step, hstep]⟩

/-- A jump out of three bodies, past a conditional that is not entered: its body would fail. -/
theorem after_cost_evaluate_jump_out :
    let program : Program := ⟨[
      .branch .equal .moco [
        .op (.increment .moco),
        .branch .greater .moco [.op .unknown],
        .branch .notEqual .moco [.branch .less .moco [.op (.jump "out")]],
        .op .wait],
      .op (.label "out")]⟩
    let m : Machine := { Machine.start [1] program none with hand := some 1 }
    m.stack = [⟨m.program.block, 0⟩] ∧ 0 < m.program.block.length ∧
      (m.after 6).stack = [⟨program.block, 1⟩] ∧ (m.after 6).array = [2] ∧
      (m.after 6).stepCount.toNat = 6 := by
  intro program m
  have he : m.program.block[0].evaluate m.program 0 0 m.store = ⟨.jump 1, ⟨[2], 0, 0, some 1⟩, 6⟩ := by
    decide
  obtain ⟨-, -, hst, -, hcount, hend⟩ := after_cost_evaluate m 0 rfl (by decide)
  rw [he] at hst hcount hend
  simp only [Snapshot.store, Store.mk.injEq] at hst
  exact ⟨rfl, by decide, hend, hst.1, hcount (by decide)⟩

end SeatMachine
