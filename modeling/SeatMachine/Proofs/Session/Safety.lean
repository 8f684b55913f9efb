import SeatMachine.Proofs.Machine.Change
import SeatMachine.Proofs.Machine.Hindrance
import SeatMachine.Proofs.Machine.Nesting
import SeatMachine.Proofs.Session.Coherence
/-!
# Safety of checked programs

Some faults can be seen in a program before it is run: an unknown instruction, an operand that is out of
range, a jump to a label that the program does not have, and an instruction that needs a value in the hand
before any was picked. `IsChecked` excludes them, and can be decided.

A checked program keeps `Sound`: its row has the length it started with, and its hand is empty only before
the first step. From a sound snapshot a step fails at the edge of the row only, which under the boundary
policy ends an attempt and does not fail it. `checked_never_faulted` is the main theorem.
-/
namespace SeatMachine

/-! ## Checking -/

namespace Instruction

mutual

def all (test : Operation → Bool) : Instruction → Bool
  | .op o => test o
  | .branch _ _ body => allBlock test body
termination_by structural i => i

/-- Every operation in a block, also inside bodies, passes a test. -/
def allBlock (test : Operation → Bool) : Block → Bool
  | [] => true
  | i :: block => i.all test && allBlock test block
termination_by structural block => block

end

variable {test : Operation → Bool}

theorem all_of_mem {i : Instruction} :
    ∀ {block : Block}, allBlock test block = true → i ∈ block → i.all test = true
  | j :: block, h, hi => by
    simp only [allBlock, Bool.and_eq_true] at h
    rcases List.mem_cons.1 hi with rfl | hi
    · exact h.1
    · exact all_of_mem h.2 hi

theorem Occurs.cons {i j : Instruction} {block : Block} (h : i.Occurs block) : i.Occurs (j :: block) := by
  cases h with
  | here hi => exact .here (List.mem_cons_of_mem _ hi)
  | inside hb ho => exact .inside (List.mem_cons_of_mem _ hb) ho

theorem allBlock_sound {o : Operation} {block : Block} (ho : (Instruction.op o).Occurs block) :
    allBlock test block = true → test o = true := by
  induction ho with
  | here hi => intro h; exact all_of_mem h hi
  | inside hb _ ih => intro h; exact ih (all_of_mem h hb)

mutual

theorem all_complete : ∀ (i : Instruction),
    (∀ o, (Instruction.op o).Occurs [i] → test o = true) → i.all test = true
  | .op o, h => h o (.here (List.mem_singleton.2 rfl))
  | .branch _ _ body, h =>
    allBlock_complete body fun o ho => h o (.inside (List.mem_singleton.2 rfl) ho)
termination_by structural i => i

theorem allBlock_complete : ∀ (block : Block),
    (∀ o, (Instruction.op o).Occurs block → test o = true) → allBlock test block = true
  | [], _ => rfl
  | i :: block, h => by
    have hi : i.all test = true := all_complete i fun o ho => h o (by
      cases ho with
      | here hm => exact .here (List.mem_cons.2 (Or.inl (List.mem_singleton.1 hm)))
      | inside hm hin => exact .inside (List.mem_cons.2 (Or.inl (List.mem_singleton.1 hm))) hin)
    have hblock : allBlock test block = true := allBlock_complete block fun o ho => h o ho.cons
    simp only [allBlock, hi, hblock, Bool.and_self]
termination_by structural block => block

end

/-- The test is passed at every depth just if it is passed by all operations that occur. -/
theorem allBlock_iff {block : Block} :
    allBlock test block = true ↔ ∀ o, (Instruction.op o).Occurs block → test o = true :=
  ⟨fun h _ ho => allBlock_sound ho h, allBlock_complete block⟩

end Instruction

/-- The operation is known, its value is not negative, its index is one of a row of this length, and its
label is one of the program. -/
def Operation.Passes (program : Program) (length : Nat) : Operation → Prop
  | .setPointer _ index => 0 ≤ index.toInt ∧ index.toInt < length
  | .setValue _ value => 0 ≤ value
  | .ifEnd _ name | .ifMeet name | .jump name => .op (.label name) ∈ program.block
  | .unknown => False
  | .moveLeft _ | .moveRight _ | .moveToEnd _ | .pick _ | .put _ | .swap | .swapWithNext _
  | .increment _ | .decrement _ | .label _ | .wait => True

instance (program : Program) (length : Nat) : DecidablePred (Operation.Passes program length)
  | .setPointer _ index => inferInstanceAs (Decidable (0 ≤ index.toInt ∧ index.toInt < length))
  | .setValue _ value => inferInstanceAs (Decidable (0 ≤ value))
  | .ifEnd _ name | .ifMeet name | .jump name =>
    inferInstanceAs (Decidable (.op (.label name) ∈ program.block))
  | .unknown => inferInstanceAs (Decidable False)
  | .moveLeft _ | .moveRight _ | .moveToEnd _ | .pick _ | .put _ | .swap | .swapWithNext _
  | .increment _ | .decrement _ | .label _ | .wait => inferInstanceAs (Decidable True)

namespace Program

/-- A program whose first instruction picks, and all of whose operations, at any depth, pass the check for
rows of this length. -/
structure IsChecked (program : Program) (length : Nat) : Prop where
  first : ∃ target rest, program.block = .op (.pick target) :: rest
  passes : ∀ o, program.Contains (.op o) → o.Passes program length

def startsWithPick (program : Program) : Bool :=
  match program.block with
  | .op (.pick _) :: _ => true
  | _ => false

theorem startsWithPick_iff {program : Program} :
    program.startsWithPick = true ↔ ∃ target rest, program.block = .op (.pick target) :: rest := by
  unfold startsWithPick
  split
  · rename_i target rest h
    simp only [true_iff]
    exact ⟨target, rest, h⟩
  · rename_i h
    simp only [Bool.false_eq_true, false_iff, not_exists]
    exact fun target rest e => h target rest e

theorem isChecked_iff {program : Program} {length : Nat} :
    (program.startsWithPick = true ∧
        Instruction.allBlock (fun o => decide (o.Passes program length)) program.block = true) ↔
      program.IsChecked length := by
  rw [startsWithPick_iff, Instruction.allBlock_iff]
  simp only [decide_eq_true_eq]
  exact ⟨fun ⟨hfirst, hall⟩ => ⟨hfirst, hall⟩, fun h => ⟨h.first, h.passes⟩⟩

instance (program : Program) (length : Nat) : Decidable (program.IsChecked length) :=
  decidable_of_iff _ isChecked_iff

/-- A jump of a checked program finds its label. -/
theorem IsChecked.resolve_isSome {program : Program} {length : Nat} (h : program.IsChecked length)
    {st : Store} {o : Operation} {label : String} (ho : program.Contains (.op o))
    (hl : st.jumpLabel? o = some label) : (program.resolve label).isSome := by
  have hlabel : .op (.label label) ∈ program.block := by
    have hp := h.passes o ho
    rcases Store.jumpLabel?_eq_some_iff.1 hl with rfl | ⟨target, rfl, -⟩ | ⟨rfl, -⟩
    · exact hp
    · exact hp
    · exact hp
  rw [Option.isSome_iff_ne_none]
  exact fun hnone => lastLabel?_eq_none_iff.1 hnone hlabel

end Program

/-! ## What operations keep -/

namespace Store

variable {st st' : Store} {depth pc : Nat}

theorem hand_of_pick {target : Cursor} (h : st.effect depth pc (.pick target) = .ok st') :
    st'.hand.isSome := by
  obtain ⟨value, -, h⟩ := exists_of_seat_bind h
  cases h; rfl

theorem hand_of_test {c : Comparison} {target : Cursor} {taken : Bool}
    (h : st.test depth pc c target = .ok taken) : st.hand.isSome := by
  unfold test held at h
  cases hh : st.hand with
  | none => rw [hh] at h; cases h
  | some value => rfl

end Store

/-! ## Runs of a checked program -/

namespace Snapshot

variable {program : Program} {length : Nat} {s s' : Snapshot} {outcome : Outcome} {fault : Fault}

/-- The frames are nested, the row has its length, and the hand is empty at the start only. -/
structure Sound (program : Program) (length : Nat) (s : Snapshot) : Prop where
  nested : Nested program s.stack
  length_eq : s.array.length = length
  hand : s.hand.isSome ∨ s.stack = [⟨program.block, 0⟩]

/-- With an empty hand, a checked program is about to pick. -/
theorem Sound.current_pick (h : Sound program length s) (hc : program.IsChecked length)
    (hh : s.hand = none) : ∃ target, s.current? = some (.op (.pick target)) := by
  obtain ⟨target, rest, hblock⟩ := hc.first
  rcases h.hand with hs | hs
  · simp [hh] at hs
  · exact ⟨target, by simp [current?, hs, Frame.current?, hblock]⟩

theorem sound_start (array : List Int64) (program : Program) :
    Sound program array.length (start array program) :=
  ⟨nested_start array program, rfl, Or.inr rfl⟩

/-- One step of a checked program. -/
theorem sound_transition (hc : program.IsChecked length) (ht : Transition program s outcome s')
    (h : Sound program length s) : Sound program length s' := by
  have hn := nested_transition ht h.nested
  have hpick := h.current_pick hc
  have hlen := h.length_eq
  -- Anything but a pick needs a value in the hand already, since an empty hand is followed by a pick.
  have hheld : (∀ target, s.current? ≠ some (.op (.pick target))) → s.hand.isSome := by
    intro hne
    cases hh : s.hand with
    | none =>
      obtain ⟨target, hp⟩ := hpick hh
      exact absurd hp (hne target)
    | some value => rfl
  cases ht with
  | idle => exact h
  | stuck => exact h
  | lost => exact h
  | undecided => exact h
  | @complete st frame n hcur =>
    have hcur' : (st.snapshot [frame] n).current? = none := hcur
    exact ⟨hn, hlen, Or.inl (hheld (by simp [hcur']))⟩
  | @leave st frame outer rest n hcur =>
    have hcur' : (st.snapshot (frame :: outer :: rest) n).current? = none := hcur
    exact ⟨hn, hlen, Or.inl (hheld (by simp [hcur']))⟩
  | @operate st st' frame outer n o hcur hl he =>
    obtain ⟨hlen', hkeep⟩ := Store.keeps_of_effect he
    refine ⟨hn, hlen'.trans hlen, Or.inl ?_⟩
    have hcur' : (st.snapshot (frame :: outer) n).current? = some (.op o) := hcur
    by_cases ho : ∃ target, o = .pick target
    · obtain ⟨target, rfl⟩ := ho
      exact Store.hand_of_pick he
    · refine hkeep (hheld fun target hp => ho ⟨target, ?_⟩)
      rw [hcur'] at hp
      injection hp with hp
      injection hp
  | @jump st frame outer n o label place hcur hl hr =>
    have hcur' : (st.snapshot (frame :: outer) n).current? = some (.op o) := hcur
    refine ⟨hn, hlen, Or.inl (hheld fun target hp => ?_)⟩
    rw [hcur'] at hp
    cases hp
    cases hl
  | enter hcur ht => exact ⟨hn, hlen, Or.inl (Store.hand_of_test ht)⟩
  | pass hcur ht => exact ⟨hn, hlen, Or.inl (Store.hand_of_test ht)⟩

/-- Any number of steps. -/
theorem sound_after {array : List Int64} (hc : program.IsChecked array.length) (k : Nat) :
    Sound program array.length ((start array program).after program k) :=
  after_invariant (sound_start array program)
    (fun s => sound_transition hc (Transition.of_step program s)) k

/-- A step of a checked program fails at the edge of the row only, as long as there is one to do. -/
theorem Sound.edge_of_failed (h : Sound program length s) (hc : program.IsChecked length)
    (hf : (s.step program).1 = .failed fault) :
    fault = .programCompleted ∨ fault.kind = .pointerOutOfRange := by
  have hpick := h.current_pick hc
  rcases fault_of_failed hf with
    ⟨-, hf⟩ | ⟨o, hcur, hh⟩ | ⟨o, label, hcur, hl, hr, -⟩ | ⟨c, target, body, hcur, ⟨hh, -⟩ | hk⟩
  · exact Or.inl hf
  · have hpasses := hc.passes o (contains_current h.nested hcur)
    cases hh with
    | edge hk => exact Or.inr hk
    | hand hempty =>
      -- With an empty hand the first instruction is the current one, and it picks.
      obtain ⟨target, hp⟩ := hpick hempty
      rw [hp] at hcur
      cases hcur
    | index hi =>
      have harray : s.store.array.length = length := h.length_eq
      rw [harray] at hi
      exact absurd hpasses hi
    | value hv => exact absurd hv (Int64.not_lt.2 hpasses)
    | unknown => exact hpasses.elim
  · have hsome := hc.resolve_isSome (contains_current h.nested hcur) hl
    simp [hr] at hsome
  · obtain ⟨target, hp⟩ := hpick hh
    rw [hp] at hcur
    cases hcur
  · exact Or.inr hk

end Snapshot

theorem Policy.boundary_of_edge {fault : Fault} (h : fault.kind = .pointerOutOfRange) :
    Policy.boundary fault = .soft := by
  simp only [Policy.boundary, h]

/-- No step of a checked program fails an attempt. -/
theorem Challenge.endingAt_ne_faulted {c : Challenge} {program : Program}
    (hc : program.IsChecked c.initialArray.length) (k : Nat) (fault : Fault) :
    c.endingAt program .boundary k ≠ some (.faulted fault) := by
  cases k with
  | zero => simp [endingAt]
  | succ k =>
    have hsound := Snapshot.sound_after hc k
    rw [endingAt]
    generalize (Snapshot.start c.initialArray program).after program k = s at hsound
    rw [endingAfter_eq]
    cases ho : (s.step program).1 with
    | completed => simp
    | advanced =>
      simp only
      split <;> simp
    | failed fault' =>
      have hsoft : fault' = .programCompleted ∨ Policy.boundary fault' = .soft :=
        (hsound.edge_of_failed hc ho).imp_right Policy.boundary_of_edge
      simp [hsoft]

namespace Session

/-- **Checked programs never fault.** If a program is checked for the row of its challenge, no calls, in
whatever order, bring a session under the boundary policy into a fault or make it report one. -/
theorem checked_never_faulted (c : Challenge) (program : Program) (settings : List Setting)
    (hpolicy : (build c program settings).policy = .boundary)
    (hc : program.IsChecked c.initialArray.length) (ops : List Op) :
    ((build c program settings).calls ops).status ≠ .faulted ∧
      ∀ fault, .faulted fault ∉ (build c program settings).endings ops := by
  have hP := invariant_onCourse c program .boundary
  have hb := onCourse_build c program settings
  rw [hpolicy] at hb
  have hending : ∀ {s : Session}, (∃ k, OnCourse c program .boundary s k) →
      ∀ fault, s.ending? ≠ some (.faulted fault) := by
    rintro s ⟨k, hk⟩ fault he
    rw [hk.ending_eq] at he
    exact Challenge.endingAt_ne_faulted hc k fault he
  constructor
  · intro hs
    have hco := coherent_calls c program settings ops
    obtain ⟨fault, hf⟩ := Option.isSome_iff_exists.1 (hco.faulted_iff.1 hs)
    refine hending (hP.calls ops ⟨0, hb⟩) fault ?_
    simp only [ending?, hs, hf, Option.map_some]
  · intro fault hmem
    obtain ⟨s, hs, he⟩ := hP.exists_of_mem_endings ⟨0, hb⟩ hmem
    exact hending hs fault he

/-- A checked program with a body and a jump out of it, run off the edge of the row, taken back and run
again. -/
theorem checked_never_faulted_loop :
    let c : Challenge := { initialArray := [2, 5, 9], targetArray := [9, 9, 9] }
    let program : Program := ⟨[.op (.pick .moco), .op (.label "loop"), .op (.moveRight .choco),
      .branch .less .choco [.op (.setPointer .moco 2), .op (.setValue .choco 0), .op (.jump "loop")]]⟩
    let settings : List Setting := [.historyLimit 2]
    let ops : List Op := [.run 1 none 20, .rewind, .rewind, .step, .start, .tick]
    program.IsChecked 3 ∧ ((build c program settings).calls ops).status = .finished ∧
      ((build c program settings).calls ops).status ≠ .faulted ∧
      ∀ fault, .faulted fault ∉ (build c program settings).endings ops := by
  intro c program settings ops
  have hc : program.IsChecked 3 := by decide
  exact ⟨hc, by decide, checked_never_faulted c program settings rfl hc ops⟩

end Session

end SeatMachine
