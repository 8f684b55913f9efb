import Mathlib.Data.Set.Card
import SeatMachine.Proofs.Machine.Words
import SeatMachine.Proofs.Program.Labels
/-!
# Where jumps land

A jump that is taken leaves all blocks, however deep it stands, and goes on at the label its name stands for. The label
is part of the program, so the step after the jump runs it and goes on behind it: no jump ends a program by itself.
`labels_and_landings` is the main theorem.
-/
namespace SeatMachine

theorem Program.encard_labels (p : Program) :
    {name | ∃ place : Nat, p.block[place]? = some (.op (.label name))}.encard = p.labelCount := by
  have hnames : {name | ∃ place : Nat, p.block[place]? = some (.op (.label name))} = ↑p.labelNames.toFinset := by
    ext name
    rw [Set.mem_ofPred_eq, Finset.mem_coe, List.mem_toFinset, mem_labelNames_iff]
  rw [hnames, Set.encard_coe_eq_coe_finsetCard, List.toFinset_card_of_nodup p.nodup_labelNames, labelCount]

namespace Snapshot

variable {program : Program} {s : Snapshot} {name : String} {place : Nat}

/-- The next step is a jump to this label that is taken. -/
inductive JumpsTo (s : Snapshot) (name : String) : Prop
  | always : s.current? = some (.op (.jump name)) → JumpsTo s name
  | atEnd {target : Cursor} :
    s.current? = some (.op (.ifEnd target name)) → s.cursor target + 1 = s.array.length → JumpsTo s name
  | meeting : s.current? = some (.op (.ifMeet name)) → s.moco = s.choco → JumpsTo s name

theorem JumpsTo.exists_operation (h : s.JumpsTo name) :
    ∃ o, s.current? = some (.op o) ∧ s.store.jumpLabel? o = some name := by
  cases h with
  | always hc => exact ⟨_, hc, Store.jumpLabel?_eq_some_iff.2 (Or.inl rfl)⟩
  | @atEnd target hc hend =>
    refine ⟨_, hc, Store.jumpLabel?_eq_some_iff.2 (Or.inr (Or.inl ⟨target, rfl, ?_⟩))⟩
    cases target <;> exact hend
  | meeting hc hmeet => exact ⟨_, hc, Store.jumpLabel?_eq_some_iff.2 (Or.inr (Or.inr ⟨rfl, hmeet⟩))⟩

theorem JumpsTo.step (h : s.JumpsTo name) (hresolve : program.resolve name = some place) :
    s.step program = (.advanced, s.store.snapshot [⟨program.block, place⟩] (s.stepCount + 1)) := by
  obtain ⟨o, hcurrent, hjump⟩ := h.exists_operation
  obtain ⟨st, frame, outer, n, rfl, hc⟩ := exists_frame_of_current hcurrent
  exact (Transition.jump hc hjump hresolve).eq_step

theorem step_at_label (program : Program) {block : Block} (hlabel : block[place]? = some (.op (.label name)))
    (st : Store) (n : UInt64) :
    (st.snapshot [⟨block, place⟩] n).step program = (.advanced, st.snapshot [⟨block, place + 1⟩] (n + 1)) := by
  have ht : Transition program (st.snapshot [⟨block, place⟩] n) .advanced (st.snapshot [⟨block, place + 1⟩] (n + 1)) :=
    .operate hlabel rfl rfl
  exact ht.eq_step

end Snapshot

namespace Machine

variable {m : Machine}

/-- Only one operation can be without a result; the step of any other is that of the snapshot. -/
theorem exists_step?_of_operation {o : Operation} {outcome : Outcome} {s : Snapshot}
    (hcurrent : m.current? = some (.op o)) (hne : ∀ target, o ≠ .swapWithNext target)
    (hstep : m.toSnapshot.step m.program = (outcome, s)) :
    ∃ m', m.step? = some (outcome, m') ∧ m'.toSnapshot = s := by
  have hnot : ¬ m.CountsPastLast := by
    rintro ⟨target, hswap, -⟩
    cases hcurrent.symm.trans hswap
    exact hne target rfl
  exact exists_step?_of_step hnot hstep

theorem step_twice_of_jumpsTo {name : String} {place : Nat} (hjump : m.JumpsTo name)
    (hresolve : m.program.resolve name = some place) :
    ∃ m' m'', m.step? = some (.advanced, m') ∧ m'.stack = [⟨m.program.block, place⟩] ∧
      m'.current? = some (.op (.label name)) ∧ m'.store = m.store ∧
      m'.step? = some (.advanced, m'') ∧ m''.stack = [⟨m.program.block, place + 1⟩] ∧ m''.store = m.store := by
  have hlabel := (Program.resolve_eq_some_iff.1 hresolve).1
  obtain ⟨o, hcurrent, ho⟩ := hjump.exists_operation
  have hne : ∀ target, o ≠ .swapWithNext target := by
    rintro target rfl
    cases ho
  obtain ⟨m', hstep, hlanded⟩ := exists_step?_of_operation hcurrent hne (hjump.step hresolve)
  have hcurrent' : m'.current? = some (.op (.label name)) := by
    rw [hlanded]
    exact hlabel
  have hgoOn := Snapshot.step_at_label m'.program hlabel m.store (m.stepCount + 1)
  rw [← hlanded] at hgoOn
  obtain ⟨m'', hstep', hbehind⟩ := exists_step?_of_operation hcurrent' (by rintro target h; cases h) hgoOn
  refine ⟨m', m'', hstep, ?_, hcurrent', ?_, hstep', ?_, ?_⟩
  · rw [hlanded]; rfl
  · rw [hlanded]; rfl
  · rw [hbehind]; rfl
  · rw [hbehind]; rfl

/-- **Labels and landings.** In every program, a name stands for the greatest top-level place that holds a label of this
name, and for none just if there is no such place; labels inside bodies make no difference. There are as many labels as
names of top-level labels. From every state over the program, at whatever depth, a jump that is taken to a name that
stands for a place leaves that one place of the program as the stack, and the store as it was. The instruction there is
the label, and the next step goes on behind it. -/
theorem labels_and_landings (p : Program) (name : String) :
    (∀ place, p.resolve name = some place ↔
      IsGreatest {place | p.block[place]? = some (.op (.label name))} place) ∧
    (p.resolve name = none ↔ ∀ place : Nat, p.block[place]? ≠ some (.op (.label name))) ∧
    (p.withoutBodies.resolve name = p.resolve name ∧ p.withoutBodies.labelCount = p.labelCount) ∧
    {name | ∃ place : Nat, p.block[place]? = some (.op (.label name))}.encard = p.labelCount ∧
    ∀ (m : Machine) (place : Nat), m.program = p → m.JumpsTo name → p.resolve name = some place →
      ∃ m' m'', m.step? = some (.advanced, m') ∧ m'.stack = [⟨p.block, place⟩] ∧
        m'.current? = some (.op (.label name)) ∧ m'.store = m.store ∧
        m'.step? = some (.advanced, m'') ∧ m''.stack = [⟨p.block, place + 1⟩] ∧ m''.store = m.store := by
  refine ⟨fun place => Program.resolve_eq_some_iff, Program.resolve_eq_none_iff,
    ⟨p.resolve_withoutBodies name, congrArg List.length p.labelNames_withoutBodies⟩, p.encard_labels, ?_⟩
  rintro m place rfl hjump hresolve
  exact step_twice_of_jumpsTo hjump hresolve

/-- A jump out of two bodies in a program that has its label three times, once inside a body. -/
theorem labels_and_landings_last_of_three :
    let inner : Block := [.op (.label "a"), .op (.ifMeet "a")]
    let body : Block := [.branch .equal .moco inner]
    let p : Program := ⟨[.op (.label "a"), .op (.label "a"), .branch .equal .moco body]⟩
    let m : Machine :=
      { array := [3], hand := some 3, stack := [⟨inner, 1⟩, ⟨body, 0⟩, ⟨p.block, 2⟩], history := .empty none
        program := p }
    p.labelCount = 1 ∧ ∃ m', m.step? = some (.advanced, m') ∧ m'.stack = [⟨p.block, 1⟩] ∧ m'.store = m.store := by
  intro inner body p m
  obtain ⟨-, -, -, -, hlands⟩ := labels_and_landings p "a"
  obtain ⟨m', -, hstep, hstack, -, hstore, -⟩ := hlands m 1 rfl (.meeting rfl rfl) (by decide)
  exact ⟨by decide, m', hstep, hstack, hstore⟩

end Machine

end SeatMachine
