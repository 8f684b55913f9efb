import SeatMachine.Proofs.Machine.Transition
/-!
# Hindrances

Why a step fails. An operation that does not jump is hindered by the edge of the row, by an empty hand,
by an operand that is out of range, or because it is unknown; a conditional by an empty hand or the edge of
the row. `Hindrance` names the cases, and `fault_of_failed` lists all faults of a step with what is true of
the instruction and the store then.
-/
namespace SeatMachine

namespace Store

variable {st : Store} {depth pc : Nat} {fault : Fault}

/-- Why an operation at `pc` inside `depth` bodies fails without a jump. -/
inductive Hindrance (st : Store) (depth pc : Nat) : Operation → Fault → Prop
  /-- A cursor is, or would get, off the row. -/
  | edge {o : Operation} {fault : Fault} :
    fault.kind = .pointerOutOfRange → Hindrance st depth pc o fault
  | hand {target : Cursor} :
    st.hand = none → Hindrance st depth pc (.put target) (.handEmpty depth pc)
  | index {target : Cursor} {index : Int64} :
    ¬(0 ≤ index.toInt ∧ index.toInt < st.array.length) →
    Hindrance st depth pc (.setPointer target index) (.indexOutOfRange index st.array.length)
  | value {target : Cursor} {value : Int64} :
    value < 0 → Hindrance st depth pc (.setValue target value) (.negativeValue value depth pc)
  | unknown : Hindrance st depth pc .unknown (.unknownInstruction depth pc)

theorem of_seat_error {target : Cursor} (h : st.seat target = .error fault) :
    st.array.length ≤ st.cursor target ∧
      fault = .pointerOutOfRange target (st.cursor target) st.array.length := by
  by_cases hin : st.cursor target < st.array.length
  · rw [seat_of_lt hin] at h
    cases h
  · have hout := Nat.le_of_not_lt hin
    rw [seat_of_le hout] at h
    cases h
    exact ⟨hout, rfl⟩

theorem kind_of_seat_error {target : Cursor} (h : st.seat target = .error fault) :
    fault.kind = .pointerOutOfRange := by
  obtain ⟨-, rfl⟩ := of_seat_error h
  rfl

theorem of_held_error (h : st.held depth pc = .error fault) :
    st.hand = none ∧ fault = .handEmpty depth pc := by
  unfold held at h
  split at h
  · cases h
  · rename_i hh
    cases h
    exact ⟨hh, rfl⟩

/-- What comes after a look at a seat fails with the look, or by itself. -/
theorem seat_bind_error {β : Type} {target : Cursor} {next : Int64 → Except Fault β}
    (h : (st.seat target >>= next) = .error fault) :
    (st.array.length ≤ st.cursor target ∧
      fault = .pointerOutOfRange target (st.cursor target) st.array.length) ∨
    ∃ value, next value = .error fault := by
  cases hs : st.seat target with
  | error fault' =>
    rw [hs] at h
    cases h
    exact Or.inl (of_seat_error hs)
  | ok value =>
    rw [hs] at h
    exact Or.inr ⟨value, h⟩

theorem hindrance_of_effect {o : Operation} (h : st.effect depth pc o = .error fault) :
    Hindrance st depth pc o fault := by
  cases o with
  | moveLeft target =>
    rcases seat_bind_error h with ⟨-, rfl⟩ | ⟨value, hv⟩
    · exact .edge rfl
    · split at hv
      · cases hv; exact .edge rfl
      · cases hv
  | moveRight target =>
    rcases seat_bind_error h with ⟨-, rfl⟩ | ⟨value, hv⟩
    · exact .edge rfl
    · split at hv
      · cases hv
      · cases hv; exact .edge rfl
  | moveToEnd target =>
    simp only [effect] at h
    split at h
    · cases h; exact .edge rfl
    · cases h
  | setPointer target index =>
    simp only [effect] at h
    split at h
    · cases h
    · rename_i hi
      cases h; exact .index hi
  | setValue target value =>
    simp only [effect] at h
    split at h
    · rename_i hv
      cases h; exact .value hv
    · rcases seat_bind_error h with ⟨-, rfl⟩ | ⟨_, hv⟩
      · exact .edge rfl
      · cases hv
  | put target =>
    rcases seat_bind_error h with ⟨-, rfl⟩ | ⟨value, hv⟩
    · exact .edge rfl
    · cases hh : st.held depth pc with
      | ok held => simp only [hh] at hv; cases hv
      | error fault' =>
        simp only [hh] at hv
        cases hv
        obtain ⟨hn, rfl⟩ := of_held_error hh
        exact .hand hn
  | swap =>
    rcases seat_bind_error h with ⟨-, rfl⟩ | ⟨value, hv⟩
    · exact .edge rfl
    · rcases seat_bind_error hv with ⟨-, rfl⟩ | ⟨_, hv⟩
      · exact .edge rfl
      · cases hv
  | swapWithNext target =>
    simp only [effect] at h
    split at h
    · cases h
    · cases h; exact .edge rfl
  | pick target | increment target | decrement target =>
    rcases seat_bind_error h with ⟨-, rfl⟩ | ⟨_, hv⟩
    · exact .edge rfl
    · cases hv
  | ifEnd target label => cases h
  | ifMeet label => cases h
  | jump label => cases h
  | label name => cases h
  | wait => cases h
  | unknown => cases h; exact .unknown

/-- A conditional fails for want of a value in the hand, or because the cursor is off the row. -/
theorem of_test_error {c : Comparison} {target : Cursor} (h : st.test depth pc c target = .error fault) :
    (st.hand = none ∧ fault = .handEmpty depth pc) ∨
    (st.array.length ≤ st.cursor target ∧
      fault = .pointerOutOfRange target (st.cursor target) st.array.length) := by
  unfold test at h
  cases hh : st.held depth pc with
  | error fault' =>
    rw [hh] at h
    cases h
    exact Or.inl (of_held_error hh)
  | ok hand =>
    rw [hh] at h
    rcases seat_bind_error h with hout | ⟨_, hv⟩
    · exact Or.inr hout
    · cases hv

end Store

namespace Snapshot

variable {program : Program} {s : Snapshot} {fault : Fault}

/-- All faults of a step: nothing is left to run, an operation is hindered, a jump has no label to go
to, or a conditional cannot be decided. -/
theorem fault_of_failed (h : (s.step program).1 = .failed fault) :
    (s.stack = [] ∧ fault = .programCompleted) ∨
    (∃ o, s.current? = some (.op o) ∧ s.store.Hindrance s.bodyDepth s.pc o fault) ∨
    (∃ o label, s.current? = some (.op o) ∧ s.store.jumpLabel? o = some label ∧
      program.resolve label = none ∧ fault = .labelNotFound label s.bodyDepth s.pc) ∨
    (∃ c target body, s.current? = some (.branch c target body) ∧
      ((s.hand = none ∧ fault = .handEmpty s.bodyDepth s.pc) ∨ fault.kind = .pointerOutOfRange)) := by
  have ht := Transition.of_step program s
  rw [h] at ht
  generalize (s.step program).2 = s' at ht
  cases ht with
  | idle => exact Or.inl ⟨rfl, rfl⟩
  | stuck hc _ he => exact Or.inr (Or.inl ⟨_, hc, Store.hindrance_of_effect he⟩)
  | lost hc hl hr => exact Or.inr (Or.inr (Or.inl ⟨_, _, hc, hl, hr, rfl⟩))
  | undecided hc hu =>
    refine Or.inr (Or.inr (Or.inr ⟨_, _, _, hc, ?_⟩))
    rcases Store.of_test_error hu with hhand | ⟨-, rfl⟩
    · exact Or.inl hhand
    · exact Or.inr rfl

theorem stack_of_failed_programCompleted (h : (s.step program).1 = .failed .programCompleted) :
    s.stack = [] := by
  rcases fault_of_failed h with ⟨hs, -⟩ | ⟨o, -, hh⟩ | ⟨o, label, -, -, -, hf⟩ | ⟨c, target, body, -, hf⟩
  · exact hs
  · cases hh with
    | edge hk => cases hk
  · cases hf
  · rcases hf with ⟨-, hf⟩ | hk
    · cases hf
    · cases hk

end Snapshot

end SeatMachine
