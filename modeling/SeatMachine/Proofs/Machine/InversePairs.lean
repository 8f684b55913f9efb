import SeatMachine.Proofs.General
import SeatMachine.Proofs.Machine.Accounting
import SeatMachine.Proofs.Machine.Change
import SeatMachine.Proofs.Machine.Words
/-!
# Inverse pairs

Some operations are taken back by another one: an exchange by itself, an increment by a decrement, a move by the move
the other way, and a pick, as far as the row goes, by a put. Where the first of such a pair is done, the second can be
done, too, and both together leave the row and the cursors as they were: `effect_of_isUndoneBy`. Seats count around at
the ends of a word, so this needs no bound on their values; and it needs none on the state, which may be one that no run
leads to.

`inverse_pairs_cancel` says so of two steps of a machine.
-/
namespace SeatMachine

/-- The second operation takes back what the first does to the row and the cursors. -/
inductive Operation.IsUndoneBy : Operation → Operation → Prop
  | swap : IsUndoneBy .swap .swap
  | swapWithNext (target : Cursor) : IsUndoneBy (.swapWithNext target) (.swapWithNext target)
  | increment (target : Cursor) : IsUndoneBy (.increment target) (.decrement target)
  | decrement (target : Cursor) : IsUndoneBy (.decrement target) (.increment target)
  | moveLeft (target : Cursor) : IsUndoneBy (.moveLeft target) (.moveRight target)
  | moveRight (target : Cursor) : IsUndoneBy (.moveRight target) (.moveLeft target)
  | pick (target : Cursor) : IsUndoneBy (.pick target) (.put target)

namespace Store

variable {st st' : Store} {o o' : Operation} {depth pc depth' pc' : Nat} {target : Cursor}

/-! ## Seats -/

/-- Two exchanges of the same seats change nothing. -/
theorem exchange_back {i j : Nat} {x y : Int64} (hi : st.array[i]? = some x) (hj : st.array[j]? = some y) :
    ({ st with array := (((st.array.set i y).set j x).set i x).set j y } : Store) = st := by
  rw [exchange_exchange hi hj]

/-- A seat that is written twice has its last value, and the rest stays as it was. -/
theorem write_write (target : Cursor) (value value' : Int64) :
    (st.write target value).write target value' = st.write target value' := by
  cases target <;> simp [write, cursor]

theorem write_of_seat {value : Int64} (h : st.array[st.cursor target]? = some value) : st.write target value = st := by
  unfold write
  rw [set_of_getElem? h]

theorem seat_write {value : Int64} (h : st.cursor target < st.array.length) :
    (st.write target value).seat target = .ok value := by
  refine seat_eq_ok_iff.2 ?_
  cases target with
  | moco =>
    have hlt : st.moco < st.array.length := h
    simp [write, cursor, hlt]
  | choco =>
    have hlt : st.choco < st.array.length := h
    simp [write, cursor, hlt]

/-- A value that is computed for a seat, and computed back. -/
theorem adjust_adjust {f g : Int64 → Int64} (hfg : ∀ value, g (f value) = value) {value : Int64}
    (h : st.array[st.cursor target]? = some value) :
    ((st.write target (f value)).seat target >>= fun v => pure ((st.write target (f value)).write target (g v))) =
      (.ok st : Except Fault Store) := by
  rw [seat_write (List.getElem?_eq_some_iff.1 h).1]
  show Except.ok ((st.write target (f value)).write target (g (f value))) = .ok st
  rw [hfg, write_write, write_of_seat h]

theorem effect_swap {moco choco : Int64} (hmoco : st.array[st.moco]? = some moco)
    (hchoco : st.array[st.choco]? = some choco) :
    st.effect depth pc .swap = .ok { st with array := (st.array.set st.moco choco).set st.choco moco } := by
  have hseatm : st.seat .moco = .ok moco := seat_eq_ok_iff.2 hmoco
  have hseatc : st.seat .choco = .ok choco := seat_eq_ok_iff.2 hchoco
  simp only [effect, hseatm, hseatc]
  rfl

theorem effect_swapWithNext {here next : Int64} (hhere : st.array[st.cursor target]? = some here)
    (hnext : st.array[st.cursor target + 1]? = some next) :
    st.effect depth pc (.swapWithNext target) =
      .ok { st with array := (st.array.set (st.cursor target) next).set (st.cursor target + 1) here } := by
  simp only [effect, hhere, hnext]

/-! ## Cursors -/

@[simp]
theorem cursor_place_self (target : Cursor) (seat : Nat) : (st.place target seat).cursor target = seat := by
  rw [cursor_place, if_pos rfl]

theorem place_place (target : Cursor) (seat seat' : Nat) :
    (st.place target seat).place target seat' = st.place target seat' := by
  cases target <;> rfl

theorem place_cursor (target : Cursor) : st.place target (st.cursor target) = st := by
  cases target <;> rfl

theorem effect_moveLeft (h : st.cursor target < st.array.length) (hpos : st.cursor target ≠ 0) :
    st.effect depth pc (.moveLeft target) = .ok (st.place target (st.cursor target - 1)) := by
  simp only [effect, seat_of_lt h, hpos, if_false]
  rfl

theorem effect_moveRight (h : st.cursor target + 1 < st.array.length) :
    st.effect depth pc (.moveRight target) = .ok (st.place target (st.cursor target + 1)) := by
  have hhere : st.cursor target < st.array.length := by omega
  simp only [effect, seat_of_lt hhere, h, if_true]
  rfl

/-! ## Pairs -/

/-- What the hand holds after an operation of a pair: only a pick changes it. -/
def handAfter (st : Store) : Operation → Option Int64
  | .pick target => st.array[st.cursor target]?
  | _ => st.hand

/-- Where the first operation of a pair is done, so is the second, and both together change nothing but the hand. -/
theorem effect_of_isUndoneBy (hpair : o.IsUndoneBy o') (he : st.effect depth pc o = .ok st') :
    st'.effect depth' pc' o' = .ok { st with hand := st.handAfter o } := by
  cases hpair with
  | swap =>
    obtain ⟨moco, hmoco, he⟩ := exists_of_seat_bind he
    obtain ⟨choco, hchoco, he⟩ := exists_of_seat_bind he
    cases he
    obtain ⟨hmoco', hchoco'⟩ := getElem?_exchange hmoco hchoco
    exact (effect_swap hmoco' hchoco').trans (congrArg Except.ok (exchange_back hmoco hchoco))
  | swapWithNext target =>
    simp only [effect] at he
    split at he
    · rename_i here next hhere hnext
      cases he
      obtain ⟨hhere', hnext'⟩ := getElem?_exchange hhere hnext
      have hback := congrArg (Except.ok (ε := Fault)) (exchange_back hhere hnext)
      cases target with
      | moco => exact (effect_swapWithNext hhere' hnext').trans hback
      | choco => exact (effect_swapWithNext hhere' hnext').trans hback
    · cases he
  | increment target =>
    obtain ⟨value, hvalue, he⟩ := exists_of_seat_bind he
    cases he
    exact adjust_adjust (f := (· + 1)) (g := (· - 1)) (fun v => Int64.add_sub_cancel v 1) hvalue
  | decrement target =>
    obtain ⟨value, hvalue, he⟩ := exists_of_seat_bind he
    cases he
    exact adjust_adjust (f := (· - 1)) (g := (· + 1)) (fun v => Int64.sub_add_cancel v 1) hvalue
  | moveLeft target =>
    obtain ⟨value, hvalue, he⟩ := exists_of_seat_bind he
    have hlt := (List.getElem?_eq_some_iff.1 hvalue).1
    split at he
    · cases he
    · rename_i hpos
      cases he
      -- The move was done, so the cursor was not on the first seat.
      have hback : st.cursor target - 1 + 1 = st.cursor target := by omega
      rw [effect_moveRight (by simpa [hback] using hlt), cursor_place_self, place_place, hback, place_cursor]
      rfl
  | moveRight target =>
    obtain ⟨value, -, he⟩ := exists_of_seat_bind he
    split at he
    · rename_i hlt
      cases he
      rw [effect_moveLeft (by simpa using hlt) (by simp), cursor_place_self, place_place, Nat.add_sub_cancel, place_cursor]
      rfl
    · cases he
  | pick target =>
    obtain ⟨value, hvalue, he⟩ := exists_of_seat_bind he
    cases he
    have hpicked : ({ st with hand := some value } : Store).array[({ st with hand := some value } : Store).cursor target]? =
        some value := by
      cases target <;> exact hvalue
    simp only [effect, seat_eq_ok_iff.2 hpicked, handAfter, hvalue]
    exact congrArg Except.ok (write_of_seat hpicked)

theorem jumpLabel?_of_isUndoneBy (st st' : Store) (hpair : o.IsUndoneBy o') :
    st.jumpLabel? o = none ∧ st'.jumpLabel? o' = none := by
  cases hpair <;> exact ⟨rfl, rfl⟩

/-- The one operation that may have no result stands in a pair with itself, and does not move a cursor. -/
theorem cursor_of_isUndoneBy (hpair : o.IsUndoneBy (.swapWithNext target)) (he : st.effect depth pc o = .ok st') :
    st'.cursor target = st.cursor target := by
  cases hpair
  simp only [effect] at he
  split at he
  · cases he
    cases target <;> rfl
  · cases he

end Store

/-! ## Two steps -/

namespace Snapshot

variable {program : Program} {st : Store} {frame : Frame} {outer : List Frame} {n : UInt64} {o o' : Operation}

/-- If the first step of a pair is done, so is the second. -/
theorem step_twice_of_isUndoneBy (hpair : o.IsUndoneBy o') (hnow : frame.current? = some (.op o))
    (hnext : frame.next.current? = some (.op o'))
    (hdone : ((st.snapshot (frame :: outer) n).step program).1.isSuccess = true) :
    ∃ st', st.effect outer.length frame.pc o = .ok st' ∧
      (st.snapshot (frame :: outer) n).step program = (.advanced, st'.snapshot (frame.next :: outer) (n + 1)) ∧
      (st'.snapshot (frame.next :: outer) (n + 1)).step program =
        (.advanced, ({ st with hand := st.handAfter o } : Store).snapshot (frame.next.next :: outer) (n + 1 + 1)) := by
  cases he : st.effect outer.length frame.pc o with
  | error fault =>
    rw [(Transition.stuck hnow (st.jumpLabel?_of_isUndoneBy st hpair).1 he).eq_step] at hdone
    cases hdone
  | ok st' =>
    obtain ⟨hgoesOn, hgoesOn'⟩ := st.jumpLabel?_of_isUndoneBy st' hpair
    refine ⟨st', rfl, (Transition.operate hnow hgoesOn he).eq_step, ?_⟩
    exact (Transition.operate hnext hgoesOn' (Store.effect_of_isUndoneBy hpair he)).eq_step

end Snapshot

namespace Machine

/-- **Inverse pairs cancel.** Take a machine in any state, also one that no run leads to, at any depth, whose cursors are
below the greatest possible number and whose count of steps leaves room for two more. Let the next two instructions of
the innermost block be an operation and the one that takes it back. If the step of the first is done, so is that of the
second. Both together leave the row, the cursors and all outer frames as they were, the innermost block two places further
on, and the count higher by two. The hand is as it was, too, but after a pick and a put it holds the value of the seat. -/
theorem inverse_pairs_cancel (m : Machine) (hmoco : m.moco < wordMax) (hchoco : m.choco < wordMax)
    (hcount : m.stepCount.toNat < wordMax - 1) (frame : Frame) (outer : List Frame) (o o' : Operation)
    (hstack : m.stack = frame :: outer) (hnow : frame.block[frame.pc]? = some (.op o))
    (hnext : frame.block[frame.pc + 1]? = some (.op o')) (hpair : o.IsUndoneBy o') :
    ∃ outcome m₁, m.step? = some (outcome, m₁) ∧
      (outcome.isSuccess = true → ∃ outcome' m₂, m₁.step? = some (outcome', m₂) ∧ outcome'.isSuccess = true ∧
        m₂.array = m.array ∧ m₂.moco = m.moco ∧ m₂.choco = m.choco ∧
        (∀ target, o = .pick target → ∃ value, m.array[m.cursor target]? = some value ∧ m₂.hand = some value) ∧
        ((∀ target, o ≠ .pick target) → m₂.hand = m.hand) ∧
        m₂.stack = ⟨frame.block, frame.pc + 2⟩ :: outer ∧
        m₂.stepCount.toNat = m.stepCount.toNat + 2) := by
  have hsnap : m.toSnapshot = m.store.snapshot (frame :: outer) m.stepCount := by
    rw [← hstack, Store.snapshot_store]
  refine ⟨m.step.1, m.step.2, step?_of_lt hmoco hchoco, fun hdone => ?_⟩
  rw [fst_step, hsnap] at hdone
  obtain ⟨st', he, hfirst, hsecond⟩ := Snapshot.step_twice_of_isUndoneBy hpair hnow hnext hdone
  rw [← hsnap] at hfirst
  have hfirst' : m.step.2.toSnapshot = st'.snapshot (frame.next :: outer) (m.stepCount + 1) := by
    rw [toSnapshot_step, hfirst]
  -- The cursor of an exchange stayed where it was, so the second step has a result as well.
  have hresult : ¬ m.step.2.CountsPastLast := by
    rintro ⟨target, hcurrent, hlast⟩
    rw [hfirst'] at hcurrent hlast
    cases hnext.symm.trans hcurrent
    rw [Store.cursor_snapshot, Store.cursor_of_isUndoneBy hpair he] at hlast
    cases target with
    | moco => exact Nat.ne_of_lt hmoco hlast
    | choco => exact Nat.ne_of_lt hchoco hlast
  have hone := (Snapshot.step_eq_iff.1 hfirst).toNat_stepCount (by omega)
  have htwo := (Snapshot.step_eq_iff.1 hsecond).toNat_stepCount (by omega)
  rw [← hfirst'] at hsecond
  obtain ⟨m₂, hstep, hm₂⟩ := exists_step?_of_step hresult hsecond
  refine ⟨.advanced, m₂, hstep, rfl, ?_⟩
  rw [hm₂]
  refine ⟨rfl, rfl, rfl, ?_, fun hnot => ?_, rfl, by omega⟩
  · rintro target rfl
    obtain ⟨value, hvalue, -⟩ := Store.exists_of_seat_bind he
    have hseat : m.array[m.cursor target]? = some value := by cases target <;> exact hvalue
    exact ⟨value, hseat, hvalue⟩
  · cases hpair with
    | pick target => exact absurd rfl (hnot target)
    | _ => rfl

/-- Inside a body: a seat with the greatest value is counted up around the end and down again, and a seat is picked and
put while the hand holds something else. -/
theorem inverse_pairs_cancel_inside :
    let body : Block := [.op (.increment .moco), .op (.decrement .moco), .op (.pick .choco), .op (.put .choco)]
    let outer : List Frame := [⟨[.branch .equal .moco body], 0⟩]
    let m (pc : Nat) : Machine :=
      { array := [Int64.maxValue, 3], choco := 1, hand := some 7, stack := ⟨body, pc⟩ :: outer, stepCount := 8
        history := .empty (some 0), program := ⟨[]⟩ }
    ((m 0).step? = some (.advanced, (m 0).step.2) ∧ (m 0).step.2.array = [Int64.minValue, 3] ∧
      ∃ outcome m₂, (m 0).step.2.step? = some (outcome, m₂) ∧ outcome.isSuccess = true ∧
        m₂.array = [Int64.maxValue, 3] ∧ m₂.hand = some 7 ∧ m₂.stack = ⟨body, 2⟩ :: outer ∧ m₂.stepCount.toNat = 10) ∧
    ((m 2).step? = some (.advanced, (m 2).step.2) ∧
      ∃ outcome m₂, (m 2).step.2.step? = some (outcome, m₂) ∧ outcome.isSuccess = true ∧
        m₂.array = [Int64.maxValue, 3] ∧ m₂.hand = some 3) := by
  intro body outer m
  have hup : (m 0).step? = some (.advanced, (m 0).step.2) := by decide
  have hpick : (m 2).step? = some (.advanced, (m 2).step.2) := by decide
  obtain ⟨outcome, m₁, hfirst, hcounts⟩ := inverse_pairs_cancel (m 0) (by decide) (by decide) (by decide) ⟨body, 0⟩
    outer _ _ rfl rfl rfl (.increment .moco)
  obtain ⟨rfl, rfl⟩ : outcome = .advanced ∧ m₁ = (m 0).step.2 := Prod.mk.inj (Option.some.inj (hfirst.symm.trans hup))
  obtain ⟨outcome, m₁, hfirst', hcopies⟩ := inverse_pairs_cancel (m 2) (by decide) (by decide) (by decide) ⟨body, 2⟩
    outer _ _ rfl rfl rfl (.pick .choco)
  obtain ⟨rfl, rfl⟩ : outcome = .advanced ∧ m₁ = (m 2).step.2 := Prod.mk.inj (Option.some.inj (hfirst'.symm.trans hpick))
  constructor
  · obtain ⟨outcome, m₂, hsecond, hdone, harray, -, -, -, hhand, hstack, hcount⟩ := hcounts rfl
    exact ⟨hup, by decide, outcome, m₂, hsecond, hdone, harray, hhand (by simp), hstack, hcount⟩
  · obtain ⟨outcome, m₂, hsecond, hdone, harray, -, -, hhand, -⟩ := hcopies rfl
    obtain ⟨value, hvalue, hheld⟩ := hhand .choco rfl
    cases hvalue
    exact ⟨hpick, outcome, m₂, hsecond, hdone, harray, hheld⟩

end Machine

end SeatMachine
