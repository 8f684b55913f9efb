import SeatMachine.Proofs.Machine.Change
import SeatMachine.Proofs.Machine.Course
import SeatMachine.Proofs.Machine.Words
/-!
# Cursors on the row

From the start of a program on, the row keeps its length and no cursor leaves it: `InRow`. A row without seats has no
place for a cursor at all; there every operation on a seat fails, and the cursors stay at zero. What one operation
keeps (`InRow.of_effect`), a step keeps, and with it the whole course.

A cursor on the row can be counted on from, so no operation needs a number that a word does not hold or a seat that is
not there (`InRow.run_effectOnWords`), and no fault says that a cursor is off the row (`outside_of_effect`).
`moves_stay_in_row` is the main theorem.
-/
namespace SeatMachine

namespace Store

variable {st st' : Store} {o : Operation} {depth pc length : Nat} {target : Cursor}

/-! ## What operations keep -/

/-- The row has this length and both cursors are on it, or at zero if it has no seats. -/
structure InRow (st : Store) (length : Nat) : Prop where
  length_eq : st.array.length = length
  cursor_le : ∀ target, st.cursor target ≤ length - 1

theorem InRow.cursor_lt (h : st.InRow length) (hpos : 0 < length) (target : Cursor) :
    st.cursor target < length := by
  have hle := h.cursor_le target
  omega

theorem InRow.cursor_lt_wordMax (h : st.InRow length) (hlength : length ≤ wordMax) (target : Cursor) :
    st.cursor target < wordMax := by
  have hle := h.cursor_le target
  have hpos : 0 < wordMax := by decide
  omega

theorem InRow.place (h : st.InRow length) {seat : Nat} (hseat : seat < st.array.length) :
    (st.place target seat).InRow length := by
  have hlength := h.length_eq
  refine ⟨by rw [array_place, hlength], fun other => ?_⟩
  rw [cursor_place]
  by_cases hother : other = target
  · rw [if_pos hother]
    omega
  · rw [if_neg hother]
    exact h.cursor_le other

theorem InRow.of_effect (h : st.InRow length) (he : st.effect depth pc o = .ok st') : st'.InRow length := by
  cases change_of_effect he with
  | rest => exact h
  | move hseat => exact h.place hseat
  | pick => exact ⟨h.length_eq, h.cursor_le⟩
  | put => exact ⟨by simpa [write] using h.length_eq, h.cursor_le⟩
  | assign => exact ⟨by simpa [write] using h.length_eq, h.cursor_le⟩
  | exchange => exact ⟨by simpa using h.length_eq, h.cursor_le⟩

/-! ## What cannot happen on the row -/

/-- On words, a store with its cursors on the row does all operations as on numbers. -/
theorem InRow.run_effectOnWords (h : st.InRow length) (hlength : length ≤ wordMax) (o : Operation) :
    (st.effectOnWords .trap depth pc o).run = some (st.effect depth pc o) :=
  Store.run_effectOnWords (h.length_eq ▸ hlength) fun target _ => h.cursor_lt_wordMax hlength target

theorem outside_of_seat_bind {β : Type} {other : Cursor} {next : Int64 → Except Fault β} {seat : Nat}
    (h : (st.seat other >>= next) = .error (.pointerOutOfRange target seat length)) :
    st.array.length ≤ st.cursor target ∨ ∃ value, next value = .error (.pointerOutOfRange target seat length) := by
  rcases seat_bind_error h with ⟨hout, hfault⟩ | hnext
  · cases hfault
    exact Or.inl hout
  · exact Or.inr hnext

theorem outside_of_effect {seat : Nat} (h : st.effect depth pc o = .error (.pointerOutOfRange target seat length)) :
    st.array.length ≤ st.cursor target := by
  cases o with
  | moveLeft other | moveRight other =>
    rcases outside_of_seat_bind h with hout | ⟨value, hv⟩
    · exact hout
    · split at hv <;> cases hv
  | moveToEnd other =>
    simp only [effect] at h
    split at h
    · rename_i hempty
      -- Every cursor is off a row without seats.
      rw [hempty]
      exact Nat.zero_le _
    · cases h
  | setPointer other index | swapWithNext other =>
    simp only [effect] at h
    split at h <;> cases h
  | setValue other value =>
    simp only [effect] at h
    split at h
    · cases h
    · rcases outside_of_seat_bind h with hout | ⟨_, hv⟩
      · exact hout
      · cases hv
  | put other =>
    rcases outside_of_seat_bind h with hout | ⟨value, hv⟩
    · exact hout
    · cases hh : st.held depth pc with
      | ok held => simp only [hh] at hv; cases hv
      | error fault =>
        simp only [hh] at hv
        cases hv
        obtain ⟨-, hfault⟩ := of_held_error hh
        cases hfault
  | swap =>
    rcases outside_of_seat_bind h with hout | ⟨value, hv⟩
    · exact hout
    · rcases outside_of_seat_bind hv with hout | ⟨_, hv⟩
      · exact hout
      · cases hv
  | pick other | increment other | decrement other =>
    rcases outside_of_seat_bind h with hout | ⟨_, hv⟩
    · exact hout
    · cases hv
  | ifEnd other label | ifMeet label | jump label | label name | wait | unknown => cases h

end Store

/-! ## What steps keep -/

namespace Snapshot

variable {program : Program} {s s' : Snapshot} {outcome : Outcome} {length : Nat}

/-- One step: only an operation that does not jump touches the store. -/
theorem inRow_transition (ht : Transition program s outcome s') (h : s.store.InRow length) :
    s'.store.InRow length := by
  cases ht with
  | operate hc hl he => exact Store.InRow.of_effect h he
  | idle => exact h
  | complete => exact h
  | leave => exact h
  | jump => exact h
  | enter => exact h
  | pass => exact h
  | stuck => exact h
  | lost => exact h
  | undecided => exact h

theorem inRow_after (array : List Int64) (program : Program) (k : Nat) :
    ((start array program).after program k).store.InRow array.length := by
  refine after_invariant (P := fun s => s.store.InRow array.length) ⟨rfl, fun target => ?_⟩ ?_ k
  · cases target <;> exact Nat.zero_le _
  · intro s h
    exact inRow_transition (Transition.of_step program s) h

/-- With a seat under each cursor, no step fails because a cursor is off the row. -/
theorem not_outside_of_inRow (h : s.store.InRow length) (hpos : 0 < length) {target : Cursor} {seat n : Nat} :
    (s.step program).1 ≠ .failed (.pointerOutOfRange target seat n) := by
  intro hfailed
  have hlt := h.cursor_lt hpos target
  rw [← h.length_eq] at hlt
  have ht := Transition.of_step program s
  rw [hfailed] at ht
  generalize (s.step program).2 = s' at ht
  cases ht with
  | stuck hc hl he => exact Nat.not_le.2 hlt (Store.outside_of_effect he)
  | undecided hc ht =>
    rcases Store.of_test_error ht with ⟨-, hfault⟩ | ⟨hout, hfault⟩
    · cases hfault
    · cases hfault
      exact Nat.not_le.2 hlt hout

end Snapshot

/-- A fault at the edge of the row that blames no cursor for being off it is one of two. -/
theorem Fault.edge_cases {fault : Fault} (hkind : fault.kind = .pointerOutOfRange)
    (hinside : ∀ target seat length, fault ≠ .pointerOutOfRange target seat length) :
    (∃ target seat, fault = .cannotMove target seat) ∨ ∃ seat length, fault = .cannotSwapWithNext seat length := by
  cases fault with
  | cannotMove target seat => exact Or.inl ⟨target, seat, rfl⟩
  | cannotSwapWithNext seat length => exact Or.inr ⟨seat, length, rfl⟩
  | pointerOutOfRange target seat length => exact absurd rfl (hinside target seat length)
  | _ => cases hkind

namespace Machine

/-- **Row and cursors.** Take any steps, failed ones included, and rewinds from the start of a program on a row. The row
of the machine and of every snapshot in its history has the length it started with; the cursors are on it, and at zero
if it has no seats. No operation and no conditional needs a seat that is not there or a number that a word does not
hold: done on words, they come to the same. On a row with a seat, no step fails because a cursor is off the row: at its
edge, a cursor cannot move on, or a seat has no right neighbour. -/
theorem moves_stay_in_row (array : List Int64) (program : Program) (limit : Option Nat) (as : List Move) :
    let m := (Machine.start array program limit).moves as
    (∀ s ∈ m.toSnapshot :: m.history.toList,
      s.array.length = array.length ∧
      (0 < array.length → s.moco < array.length ∧ s.choco < array.length) ∧
      (array.length = 0 → s.moco = 0 ∧ s.choco = 0) ∧
      (array.length ≤ wordMax →
        (∀ o, (s.store.effectOnWords .trap s.bodyDepth s.pc o).run = some (s.store.effect s.bodyDepth s.pc o)) ∧
        ∀ c target,
          (s.store.testOnWords s.bodyDepth s.pc c target).run = some (s.store.test s.bodyDepth s.pc c target)) ∧
      (0 < array.length → ∀ fault, (s.step program).1 = .failed fault →
        (∀ target seat length, fault ≠ .pointerOutOfRange target seat length) ∧
        (fault.kind = .pointerOutOfRange →
          (∃ target seat, fault = .cannotMove target seat) ∨ ∃ seat length, fault = .cannotSwapWithNext seat length))) ∧
    (array.length ≤ wordMax → m.step? = some m.step) := by
  intro m
  have hrow : ∀ s ∈ m.toSnapshot :: m.history.toList, s.store.InRow array.length := by
    intro s hs
    obtain ⟨k, rfl⟩ := exists_after_of_mem hs
    exact Snapshot.inRow_after array program k
  refine ⟨fun s hs => ?_, fun hword => ?_⟩
  · have h := hrow s hs
    refine ⟨h.length_eq, fun hpos => ⟨h.cursor_lt hpos .moco, h.cursor_lt hpos .choco⟩, fun hzero => ?_,
      fun hword => ⟨h.run_effectOnWords hword, fun c target => Store.run_testOnWords⟩, fun hpos fault hfailed => ?_⟩
    · have hmoco := h.cursor_le .moco
      have hchoco := h.cursor_le .choco
      rw [hzero] at hmoco hchoco
      exact ⟨Nat.le_zero.1 hmoco, Nat.le_zero.1 hchoco⟩
    · have hinside : ∀ target seat length, fault ≠ .pointerOutOfRange target seat length := by
        rintro target seat length rfl
        exact Snapshot.not_outside_of_inRow h hpos hfailed
      exact ⟨hinside, fun hkind => Fault.edge_cases hkind hinside⟩
  · have h := hrow m.toSnapshot (List.mem_cons_self ..)
    exact step?_of_lt (h.cursor_lt_wordMax hword .moco) (h.cursor_lt_wordMax hword .choco)

/-- A cursor at the right edge, after a step that failed there, a rewind and another try. -/
theorem moves_stay_in_row_at_edge :
    let program : Program := ⟨[.op (.moveToEnd .choco), .op (.moveRight .choco)]⟩
    let m := (Machine.start [5, 4] program (some 1)).moves [.step, .step, .rewind, .step]
    m.choco = 1 ∧ m.choco < 2 ∧ m.array.length = 2 ∧ (m.toSnapshot.step program).1 = .failed (.cannotMove .choco 1) ∧
      m.step? = some m.step := by
  intro program m
  obtain ⟨hrow, hstep⟩ := moves_stay_in_row [5, 4] program (some 1) [.step, .step, .rewind, .step]
  obtain ⟨hlength, hcursors, -⟩ := hrow m.toSnapshot (List.mem_cons_self ..)
  exact ⟨rfl, (hcursors (by decide)).2, hlength, rfl, hstep (by decide)⟩

end Machine

end SeatMachine
