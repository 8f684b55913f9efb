import SeatMachine.Proofs.Machine.Transition
/-!
# Changes of a store

What an operation that is done makes of the row, the cursors and the hand. `Change` lists the cases with all that is
known in each of them: a cursor is placed on the row, a seat of the row is picked, put or assigned, two seats are
exchanged, or nothing happens. `change_of_effect` says that there are no others, and what operations keep is read off
the cases.
-/
namespace SeatMachine

/-- The operation computes a new value for a seat. -/
def Operation.assigns : Operation → Bool
  | .setValue _ _ | .increment _ | .decrement _ => true
  | _ => false

namespace Store

variable {st st' : Store} {o : Operation} {depth pc : Nat}

/-! ## Cursors and seats -/

@[simp]
theorem array_place (target : Cursor) (seat : Nat) : (st.place target seat).array = st.array := by
  cases target <;> rfl

@[simp]
theorem hand_place (target : Cursor) (seat : Nat) : (st.place target seat).hand = st.hand := by
  cases target <;> rfl

theorem cursor_place (target other : Cursor) (seat : Nat) :
    (st.place target seat).cursor other = if other = target then seat else st.cursor other := by
  cases target <;> cases other <;> rfl

/-- What comes after a look at a seat is done only if the seat is there. -/
theorem exists_of_seat_bind {β : Type} {target : Cursor} {next : Int64 → Except Fault β} {b : β}
    (h : (st.seat target >>= next) = .ok b) :
    ∃ value, st.array[st.cursor target]? = some value ∧ next value = .ok b := by
  cases hs : st.seat target with
  | error fault => rw [hs] at h; cases h
  | ok value => rw [hs] at h; exact ⟨value, seat_eq_ok_iff.1 hs, h⟩

/-! ## The cases -/

/-- All that an operation that is done, and does not jump, can make of a store. -/
inductive Change (st : Store) : Operation → Store → Prop
  | rest {o : Operation} : Change st o st
  /-- A cursor is placed on a seat of the row. -/
  | move {o : Operation} {target : Cursor} {seat : Nat} :
    seat < st.array.length → Change st o (st.place target seat)
  /-- A seat is copied into the hand. -/
  | pick {target : Cursor} {value : Int64} :
    st.array[st.cursor target]? = some value → Change st (.pick target) { st with hand := some value }
  /-- The hand is copied into a seat. -/
  | put {target : Cursor} {value : Int64} :
    st.cursor target < st.array.length → st.hand = some value → Change st (.put target) (st.write target value)
  /-- A seat gets a new value. -/
  | assign {o : Operation} {target : Cursor} {value : Int64} :
    o.assigns = true → st.cursor target < st.array.length → Change st o (st.write target value)
  /-- Two seats are exchanged. -/
  | exchange {o : Operation} {i j : Nat} {x y : Int64} :
    st.array[i]? = some x → st.array[j]? = some y →
    Change st o { st with array := (st.array.set i y).set j x }

theorem change_of_effect (h : st.effect depth pc o = .ok st') : Change st o st' := by
  cases o with
  | moveLeft target =>
    obtain ⟨value, hvalue, h⟩ := exists_of_seat_bind h
    have hlt := (List.getElem?_eq_some_iff.1 hvalue).1
    split at h
    · cases h
    · cases h
      exact .move (by omega)
  | moveRight target =>
    obtain ⟨value, -, h⟩ := exists_of_seat_bind h
    split at h
    · rename_i hlt
      cases h
      exact .move hlt
    · cases h
  | moveToEnd target =>
    simp only [effect] at h
    split at h
    · cases h
    · rename_i hne
      have hpos := List.length_pos_iff.2 hne
      cases h
      exact .move (by omega)
  | setPointer target index =>
    simp only [effect] at h
    split at h
    · rename_i hindex
      cases h
      exact .move (by omega)
    · cases h
  | setValue target value =>
    simp only [effect] at h
    split at h
    · cases h
    · obtain ⟨_, hseat, h⟩ := exists_of_seat_bind h
      cases h
      exact .assign rfl (List.getElem?_eq_some_iff.1 hseat).1
  | pick target =>
    obtain ⟨value, hvalue, h⟩ := exists_of_seat_bind h
    cases h
    exact .pick hvalue
  | put target =>
    obtain ⟨_, hseat, h⟩ := exists_of_seat_bind h
    cases hh : st.held depth pc with
    | error fault => simp only [hh] at h; cases h
    | ok value =>
      simp only [hh] at h
      cases h
      exact .put (List.getElem?_eq_some_iff.1 hseat).1 (held_eq_ok_iff.1 hh)
  | swap =>
    obtain ⟨moco, hmoco, h⟩ := exists_of_seat_bind h
    obtain ⟨choco, hchoco, h⟩ := exists_of_seat_bind h
    cases h
    exact .exchange hmoco hchoco
  | swapWithNext target =>
    simp only [effect] at h
    split at h
    · rename_i hhere hnext
      cases h
      exact .exchange hhere hnext
    · cases h
  | increment target | decrement target =>
    obtain ⟨value, hvalue, h⟩ := exists_of_seat_bind h
    cases h
    exact .assign rfl (List.getElem?_eq_some_iff.1 hvalue).1
  | ifEnd target label => cases h; exact .rest
  | ifMeet label => cases h; exact .rest
  | jump label => cases h; exact .rest
  | label name => cases h; exact .rest
  | wait => cases h; exact .rest
  | unknown => cases h

/-- No operation changes the length of the row or empties the hand. -/
theorem keeps_of_effect (h : st.effect depth pc o = .ok st') :
    st'.array.length = st.array.length ∧ (st.hand.isSome → st'.hand.isSome) := by
  cases change_of_effect h with
  | rest => exact ⟨rfl, id⟩
  | move => simp
  | pick => simp
  | put => simp [write]
  | assign => simp [write]
  | exchange => simp

end Store

end SeatMachine
