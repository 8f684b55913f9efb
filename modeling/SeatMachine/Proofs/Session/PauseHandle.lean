import SeatMachine.Proofs.Session.TimedRun
/-!
# Pause handles

A handle can be taken at any time, and taking one changes nothing; `handles` lists all that can be taken
in the course of some calls. A switch is only ever replaced when it is thrown, so of all handles only those
of the switch in place can still be live: `InOrder`. `switches_apply` says all that a call can do to the
switches.

Every pause uses up a throw of the switch. `paused_add_thrown_le` keeps this account for one call,
`pausedRuns_add_thrown_le` for any calls. The main theorem is `handles_pause_runs`.
-/
namespace SeatMachine

/-! ## The board -/

namespace Switchboard

variable {board : Switchboard} {handle : Handle}

@[simp]
theorem isThrown_renew (board : Switchboard) (handle : Handle) :
    board.renew.isThrown handle = board.isThrown handle := by
  simp only [renew, isThrown, List.getD_eq_getElem?_getD]
  rcases Nat.lt_trichotomy handle.number board.thrown.length with h | h | h
  · rw [List.getElem?_append_left h]
  · simp [h]
  · rw [List.getElem?_eq_none (by simp; omega), List.getElem?_eq_none (by omega)]

theorem isThrown_throw_self (h : handle.number < board.thrown.length) :
    (board.throw handle).isThrown handle = true := by
  simp [throw, isThrown, List.getD_eq_getElem?_getD, h]

theorem isThrown_throw_ne {other : Handle} (h : other ≠ handle) :
    (board.throw handle).isThrown other = board.isThrown other := by
  have hne : handle.number ≠ other.number := fun e => h (congrArg Handle.mk e.symm)
  simp [throw, isThrown, List.getD_eq_getElem?_getD, List.getElem?_set_ne hne]

theorem isThrown_throw_of_isThrown {other : Handle} (h : board.isThrown other = true) :
    (board.throw handle).isThrown other = true := by
  by_cases e : other = handle
  · subst e
    apply isThrown_throw_self
    by_contra hlen
    simp [isThrown, List.getD_eq_getElem?_getD, List.getElem?_eq_none (Nat.le_of_not_lt hlen)] at h
  · rw [isThrown_throw_ne e, h]

/-- Throws the switch in place and puts a fresh one there, as a pause does. -/
def replace (board : Switchboard) : Switchboard :=
  (board.throw board.present).renew

/-- The switch in place is the newest one, and all before it are thrown. -/
structure InOrder (board : Switchboard) : Prop where
  newest : board.thrown.length = board.present.number + 1
  thrown : ∀ handle : Handle, handle.number < board.present.number → board.isThrown handle = true

theorem inOrder_start : start.InOrder :=
  ⟨rfl, fun handle h => by simp [start] at h⟩

namespace InOrder

theorem throw (h : board.InOrder) (handle : Handle) : (board.throw handle).InOrder :=
  ⟨by simp [Switchboard.throw, h.newest], fun other ho => isThrown_throw_of_isThrown (h.thrown other ho)⟩

theorem isThrown_of_ne (h : board.InOrder) (hle : handle.number ≤ board.present.number)
    (hne : handle ≠ board.present) : board.isThrown handle = true := by
  apply h.thrown
  have hnum : handle.number ≠ board.present.number := fun e => hne (congrArg Handle.mk e)
  omega

theorem renew (h : board.InOrder) (ht : board.isPresentThrown = true) : board.renew.InOrder := by
  refine ⟨by simp [Switchboard.renew], fun handle hlt => ?_⟩
  rw [isThrown_renew]
  have hle : handle.number ≤ board.present.number := by
    have := h.newest
    simp only [Switchboard.renew] at hlt
    omega
  by_cases e : handle = board.present
  · subst e; exact ht
  · exact h.isThrown_of_ne hle e

theorem isPresentThrown_throw (h : board.InOrder) :
    (board.throw board.present).isPresentThrown = true :=
  isThrown_throw_self (by rw [h.newest]; omega)

theorem replace (h : board.InOrder) : board.replace.InOrder :=
  (h.throw board.present).renew h.isPresentThrown_throw

/-- All handles of the board are thrown when its switch is replaced. -/
theorem isThrown_replace (h : board.InOrder) (hle : handle.number ≤ board.present.number) :
    board.replace.isThrown handle = true := by
  rw [Switchboard.replace, isThrown_renew]
  by_cases e : handle = board.present
  · subst e; exact h.isPresentThrown_throw
  · exact isThrown_throw_of_isThrown (h.isThrown_of_ne hle e)

end InOrder

end Switchboard

namespace Session

variable {s : Session}

/-! ## What calls do to the switches -/

theorem switches_advance (s : Session) : s.advance.2.switches = s.switches := by
  have h := congrArg (fun result => result.2.switches) (s.advance_switches s.switches)
  exact h

theorem switches_step (s : Session) : s.step.2.switches = s.switches := by
  obtain ⟨-, e⟩ | ⟨ending, -, e⟩ | ⟨-, -, e⟩ := s.step_cases
  · rw [e]
  · rw [e]
  · rw [e, switches_advance]

theorem switches_tick (s : Session) : s.tick.2.switches = s.switches := by
  obtain ⟨-, e⟩ | ⟨-, e⟩ := s.tick_cases
  · rw [e]
  · rw [e, switches_advance]

theorem switches_start (s : Session) : s.start.switches = s.switches := by
  unfold start
  split <;> rfl

theorem switches_rewind (s : Session) : s.rewind.2.switches = s.switches := by
  obtain ⟨-, e⟩ | ⟨m, -, e⟩ := s.rewind_cases
  · rw [e]
  · rw [e]

/-- A run that was paused has replaced the switch; any other leaves it in place. -/
theorem switches_run (h : Coherent s) (interval : Nat) (cancelAfter : Option Nat) (alarms : Nat) :
    let result := s.run interval cancelAfter alarms
    result.2.switches = if result.1 = some .paused then s.switches.replace else s.switches := by
  intro result
  cases he : s.ending? with
  | some ending =>
    have e : result = _ := run_of_ending?_eq_some he alarms
    simp [e]
  | none =>
    obtain ⟨hlt, -, e⟩ | ⟨k, -, -, hlt, e⟩ | ⟨k, ending, -, -, hneeded, -, e⟩ :=
      run_cases h he interval cancelAfter alarms
    · simp only [result, e, afterTicks_start h he hlt]
      rfl
    · simp only [result, e, if_true, pause_afterTicks h he hlt]
      rfl
    · have hlt := lt_ticksNeeded_of_eq hneeded
      simp only [result, e, afterTicks_succ, switches_tick, afterTicks_start h he hlt]
      rfl

def switchesAfter (board : Switchboard) (op : Op) (reply : Reply) : Switchboard :=
  match op with
  | .pause => board.replace
  | .reset => if board.isPresentThrown then board.renew else board
  | .cancel handle => board.throw handle
  | _ => if reply = .run (some .paused) then board.replace else board

theorem switches_apply (h : Coherent s) (op : Op) :
    (s.apply op).2.switches = switchesAfter s.switches op (s.apply op).1 := by
  cases op with
  | step => simp [apply, switchesAfter, switches_step]
  | start => simp [apply, switchesAfter, switches_start]
  | tick => simp [apply, switchesAfter, switches_tick]
  | rewind => simp [apply, switchesAfter, switches_rewind]
  | judge => simp [apply, switchesAfter]
  | pause => rfl
  | reset => rfl
  | cancel handle => rfl
  | run interval cancelAfter alarms => simp [apply, switchesAfter, switches_run h]

/-- The newest switch is always the one in place. -/
theorem invariant_inOrder : Invariant fun s => s.switches.InOrder where
  step := fun s h => by rw [switches_step]; exact h
  start := fun s h => by rw [switches_start]; exact h
  tick := fun s h => by rw [switches_tick]; exact h
  rewind := fun s h => by rw [switches_rewind]; exact h
  pause := fun _ h => h.replace
  cancel := fun _ handle h => h.throw handle
  reset := fun s h => by
    simp only [reset]
    split
    · exact h.renew (by assumption)
    · exact h

/-! ## Handles -/

/-- All handles that can be taken before some calls, between them and after them. -/
def handles (s : Session) : List Op → List Handle
  | [] => [s.pauseHandle]
  | op :: ops => s.pauseHandle :: (s.apply op).2.handles ops

theorem present_le_switchesAfter {board : Switchboard} (h : board.InOrder) (op : Op) (reply : Reply) :
    board.present.number ≤ (switchesAfter board op reply).present.number := by
  have hreplace : board.present.number ≤ board.replace.present.number := by
    simp [Switchboard.replace, Switchboard.renew, Switchboard.throw, h.newest]
  have hrenew : board.present.number ≤ board.renew.present.number := by
    simp [Switchboard.renew, h.newest]
  unfold switchesAfter
  split
  · exact hreplace
  · split
    · exact hrenew
    · exact Nat.le_refl _
  · exact Nat.le_refl _
  · split
    · exact hreplace
    · exact Nat.le_refl _

/-- No handle is newer than the switch in place. -/
theorem number_le_of_mem_handles : ∀ (ops : List Op) {s : Session} {handle : Handle}, Coherent s →
    s.switches.InOrder → handle ∈ s.handles ops →
      handle.number ≤ (s.calls ops).switches.present.number
  | [], s, handle, _, _, hmem => by
    rw [List.mem_singleton.1 hmem]
    exact Nat.le_refl _
  | op :: ops, s, handle, h, ho, hmem => by
    have h' := invariant_coherent.apply h op
    have ho' := invariant_inOrder.apply ho op
    rcases List.mem_cons.1 hmem with rfl | hmem
    · have hle : s.switches.present.number ≤ (s.apply op).2.switches.present.number := by
        rw [switches_apply h]
        exact present_le_switchesAfter ho op _
      have hhead : (s.apply op).2.pauseHandle ∈ (s.apply op).2.handles ops := by
        cases ops <;> simp [handles]
      exact hle.trans (number_le_of_mem_handles ops h' ho' hhead)
    · exact number_le_of_mem_handles ops h' ho' hmem

/-! ## Thrown switches -/

/-- To throw the switch in place and pause is to pause. -/
theorem pause_cancel (s : Session) : (s.cancel s.pauseHandle).pause = s.pause := by
  simp only [pause, cancel, pauseHandle, Switchboard.throw, List.set_set]
  rfl

/-- If the switch is thrown while a run is going, the run is paused at the next alarm, as it stands. -/
theorem run_of_cancel {interval k moment alarms : ℕ} {going : Session} (h : Coherent s)
    (hfresh : s.switches.isPresentThrown = false) (hgoing : s.run interval none k = (none, going))
    (hle : k * max interval 1 ≤ moment) (hlt : moment < (k + 1) * max interval 1) (halarms : k < alarms) :
    s.run interval (some moment) alarms = (some .paused, (going.cancel s.pauseHandle).pause) := by
  have he : s.ending? = none := by
    cases he : s.ending? with
    | none => rfl
    | some ending => rw [run_of_ending?_eq_some he] at hgoing; cases hgoing
  have hk : (k : ℕ∞) < s.start.ticksNeeded ∧ going = s.start.afterTicks k := by
    obtain ⟨hk, -, e⟩ | ⟨j, -, -, -, e⟩ | ⟨j, ending, -, -, -, -, e⟩ := run_cases h he interval none k
    · rw [e] at hgoing; cases hgoing; exact ⟨hk, rfl⟩
    · rw [e] at hgoing; cases hgoing
    · rw [e] at hgoing; cases hgoing
  obtain ⟨hk, rfl⟩ := hk
  have hpresent : (s.start.afterTicks k).pauseHandle = s.pauseHandle := by
    rw [afterTicks_start h he hk]; rfl
  have hallowed : s.ticksAllowed interval (some moment) = k := by
    simp only [ticksAllowed, hfresh, Bool.false_eq_true, if_false]
    rw [Nat.div_eq_of_lt_le hle hlt]
  rw [run_eq_runImmediately h he hallowed halarms, runImmediately_of_lt h he hk, ← hpresent, pause_cancel]

/-- A switch that is thrown stays in place until a pause, a reset or a paused run. -/
theorem isPresentThrown_calls : ∀ (later : List Op) {s : Session}, Coherent s →
    s.switches.isPresentThrown = true → .pause ∉ later → .reset ∉ later →
      .run (some .paused) ∉ s.replies later → (s.calls later).switches.isPresentThrown = true
  | [], _, _, ht, _, _, _ => ht
  | op :: later, s, h, ht, hpause, hreset, hpaused => by
    simp only [List.mem_cons, not_or, replies] at hpause hreset hpaused
    refine isPresentThrown_calls later (invariant_coherent.apply h op) ?_ hpause.2 hreset.2 hpaused.2
    rw [switches_apply h]
    have hreply : ¬ (s.apply op).1 = .run (some .paused) := fun e => hpaused.1 e.symm
    cases op with
    | pause => exact absurd rfl hpause.1
    | reset => exact absurd rfl hreset.1
    | cancel handle => exact Switchboard.isThrown_throw_of_isThrown ht
    | _ => simp only [switchesAfter, hreply, if_false]; exact ht

/-! ## The account of pauses -/

/-- The call throws the switch in place, which was not thrown before: through a handle of it, or at a
moment when the run is still going. -/
def throwsSwitch (s : Session) : Op → Bool
  | .cancel handle => !s.switches.isPresentThrown && decide (handle = s.pauseHandle)
  | .run interval (some moment) alarms =>
    let seen := moment / max interval 1
    !s.switches.isPresentThrown && (s.run interval none seen).1.isNone && decide (seen < alarms)
  | _ => false

/-- How many of some calls throw the switch in place. -/
def cancellations (s : Session) : List Op → Nat
  | [] => 0
  | op :: ops => (s.throwsSwitch op).toNat + (s.apply op).2.cancellations ops

def pausedRuns (s : Session) (ops : List Op) : Nat :=
  (s.replies ops).count (.run (some .paused))

/-- A run that is paused found its switch thrown, or it was thrown while the run was going. -/
theorem thrown_of_paused (h : Coherent s) {interval alarms : ℕ} {cancelAfter : Option ℕ}
    (hpaused : (s.run interval cancelAfter alarms).1 = some .paused) :
    s.switches.isPresentThrown = true ∨ s.throwsSwitch (.run interval cancelAfter alarms) = true := by
  by_cases ht : s.switches.isPresentThrown = true
  · exact Or.inl ht
  · right
    have he : s.ending? = none := by
      cases he : s.ending? with
      | none => rfl
      | some ending => rw [run_of_ending?_eq_some he] at hpaused; cases hpaused
    obtain ⟨-, -, e⟩ | ⟨k, hk, hallowed, hlt, -⟩ | ⟨k, ending, -, -, -, -, e⟩ :=
      run_cases h he interval cancelAfter alarms
    · rw [e] at hpaused; cases hpaused
    · cases cancelAfter with
      | none =>
        simp only [ticksAllowed, ht] at hallowed
        exact absurd hallowed (ENat.top_ne_natCast k)
      | some moment =>
        -- The switch is seen at the first alarm after the moment; up to there the run was going.
        obtain rfl : moment / max interval 1 = k := by
          simp only [ticksAllowed, ht] at hallowed
          exact_mod_cast hallowed
        have hgoing : s.run interval none (moment / max interval 1) = _ :=
          run_eq_untilEnd h he (by simp [ticksAllowed, ht])
        rw [(h.active_start he).untilEnd_of_lt hlt] at hgoing
        simp [throwsSwitch, ht, hgoing, hk]
    · rw [e] at hpaused; cases hpaused

/-- One call: a paused run uses up a throw, and a throw that is not used up is still there. -/
theorem paused_add_thrown_le (h : Coherent s) (op : Op) :
    (if (s.apply op).1 = .run (some .paused) then 1 else 0) +
        (s.apply op).2.switches.isPresentThrown.toNat ≤
      (s.throwsSwitch op).toNat + s.switches.isPresentThrown.toNat := by
  rw [switches_apply h]
  cases op with
  | pause => simp [apply, switchesAfter, Switchboard.replace]
  | reset =>
    by_cases ht : s.switches.isPresentThrown = true
    · simp [apply, switchesAfter, ht]
    · simp [apply, switchesAfter, ht]
  | cancel handle =>
    simp only [apply, switchesAfter, reduceCtorEq, if_false, Nat.zero_add]
    by_cases e : s.switches.present = handle
    · -- The switch in place is thrown now; either it was before, or this call did it.
      subst e
      cases hb : s.switches.isPresentThrown <;> simp [throwsSwitch, hb, pauseHandle, Bool.toNat_le]
    · have hsame : (s.switches.throw handle).isPresentThrown = s.switches.isPresentThrown :=
        Switchboard.isThrown_throw_ne e
      rw [hsame]
      exact Nat.le_add_left _ _
  | run interval cancelAfter alarms =>
    simp only [apply, switchesAfter, Reply.run.injEq]
    by_cases hpaused : (s.run interval cancelAfter alarms).1 = some .paused
    · simp only [hpaused, if_true, Switchboard.replace, Switchboard.isPresentThrown_renew, Bool.toNat_false]
      rcases thrown_of_paused h hpaused with ht | ht
      · simp [ht]
      · simp [ht]
    · simp only [hpaused, if_false, Nat.zero_add]
      exact Nat.le_add_left _ _
  | _ => simp [apply, switchesAfter, throwsSwitch]

/-- Any calls: there are no more paused runs than throws of the switch, one thrown before included. -/
theorem pausedRuns_add_thrown_le : ∀ (ops : List Op) {s : Session}, Coherent s →
    s.pausedRuns ops + (s.calls ops).switches.isPresentThrown.toNat ≤
      s.cancellations ops + s.switches.isPresentThrown.toNat
  | [], s, _ => by simp [pausedRuns, replies, calls, cancellations]
  | op :: ops, s, h => by
    have hcall := paused_add_thrown_le h op
    have hrest := pausedRuns_add_thrown_le ops (invariant_coherent.apply h op)
    simp only [pausedRuns, replies, calls, cancellations, List.count_cons, beq_iff_eq] at hrest ⊢
    omega

theorem inOrder_calls (c : Challenge) (program : Program) (settings : List Setting) (ops : List Op) :
    ((build c program settings).calls ops).switches.InOrder := by
  apply invariant_inOrder.calls ops
  obtain ⟨policy, sink, limit, e⟩ := build_eq c program settings
  rw [e]
  exact Switchboard.inOrder_start

/-- **A handle pauses one run.** Make any calls on a session, and take handles of it at any time. Every
handle taken is thrown or is one of the switch in place. Throwing one that is not thrown pauses the run
that is going at its next alarm, as it stands then; or else the next run of an attempt that is not over, at
its first alarm, unless a pause, a reset or a paused run comes before. A pause, and a run that is paused,
leaves all handles taken so far thrown and a switch in place that is not; and so is the switch in place
after a reset. In any calls no more runs are paused than the switch in place is thrown, counting a throw
that was not used up before. -/
theorem handles_pause_runs (c : Challenge) (program : Program) (settings : List Setting)
    (ops : List Op) :
    let s₀ := build c program settings
    let s := s₀.calls ops
    (∀ handle ∈ s₀.handles ops,
      (s.switches.isThrown handle = true ∨ handle = s.pauseHandle) ∧
      (s.switches.isThrown handle = false →
        (∀ (interval k moment alarms : ℕ) (going : Session), s.run interval none k = (none, going) →
          k * max interval 1 ≤ moment → moment < (k + 1) * max interval 1 → k < alarms →
          s.run interval (some moment) alarms = (some .paused, (going.cancel handle).pause)) ∧
        ∀ later : List Op, .pause ∉ later → .reset ∉ later →
          .run (some .paused) ∉ (s.cancel handle).replies later →
          let s' := (s.cancel handle).calls later
          s'.ending? = none → ∀ interval cancelAfter alarms,
            s'.run interval cancelAfter (alarms + 1) = (some .paused, s'.start.pause))) ∧
    ((∀ handle ∈ s₀.handles ops, s.pause.switches.isThrown handle = true) ∧
      s.pause.switches.isPresentThrown = false) ∧
    (∀ interval cancelAfter alarms s', s.run interval cancelAfter alarms = (some .paused, s') →
      (∀ handle ∈ s₀.handles ops, s'.switches.isThrown handle = true) ∧
        s'.switches.isPresentThrown = false) ∧
    s.reset.switches.isPresentThrown = false ∧
    ∀ later, s.pausedRuns later ≤ s.cancellations later + s.switches.isPresentThrown.toNat := by
  intro s₀ s
  have h : Coherent s := coherent_calls c program settings ops
  have ho : s.switches.InOrder := inOrder_calls c program settings ops
  have hle : ∀ handle ∈ s₀.handles ops, handle.number ≤ s.switches.present.number := fun handle hmem =>
    number_le_of_mem_handles ops (coherent_build c program settings) (inOrder_calls c program settings []) hmem
  have hshared : ∀ handle ∈ s₀.handles ops, s.switches.isThrown handle = true ∨ handle = s.pauseHandle := by
    intro handle hmem
    by_cases e : handle = s.pauseHandle
    · exact Or.inr e
    · exact Or.inl (ho.isThrown_of_ne (hle handle hmem) e)
  -- All that is said of a handle that is not thrown is said of the switch in place.
  have hlive : ∀ handle ∈ s₀.handles ops, s.switches.isThrown handle = false → handle = s.pauseHandle := by
    intro handle hmem hf
    rcases hshared handle hmem with ht | e
    · rw [hf] at ht; cases ht
    · exact e
  refine ⟨fun handle hmem => ⟨hshared handle hmem, fun hf => ⟨?_, ?_⟩⟩, ⟨?_, ?_⟩, ?_, ?_, ?_⟩
  · intro interval k moment alarms going hgoing hk hmoment halarms
    obtain rfl := hlive handle hmem hf
    exact run_of_cancel h hf hgoing hk hmoment halarms
  · intro later hpause hreset hpaused s' he interval cancelAfter alarms
    obtain rfl := hlive handle hmem hf
    have hcancel : Coherent (s.cancel s.pauseHandle) := invariant_coherent.cancel s _ h
    exact run_of_isPresentThrown (invariant_coherent.calls later hcancel) he
      (isPresentThrown_calls later hcancel ho.isPresentThrown_throw hpause hreset hpaused) alarms
  · intro handle hmem
    exact ho.isThrown_replace (hle handle hmem)
  · exact Switchboard.isPresentThrown_renew _
  · intro interval cancelAfter alarms s' hrun
    have hswitches := switches_run h interval cancelAfter alarms
    simp only [hrun, if_true] at hswitches
    rw [hswitches]
    exact ⟨fun handle hmem => ho.isThrown_replace (hle handle hmem), Switchboard.isPresentThrown_renew _⟩
  · by_cases ht : s.switches.isPresentThrown = true
    · simp [reset, ht]
    · simp [reset, ht]
  · intro later
    have hcount := pausedRuns_add_thrown_le later h
    omega

/-- A program that spins: the handle taken after a pause stops the run that is going, or the next run after
a step and a rewind; and of two runs after one throw, one is paused. -/
theorem handles_pause_runs_spin :
    let c : Challenge := { initialArray := [1], targetArray := [1] }
    let spin : Program := ⟨[.op (.label "spin"), .op (.jump "spin")]⟩
    let s := (build c spin []).calls [.step, .pause]
    let handle : Handle := ⟨1⟩
    let later : List Op := [.cancel handle, .run 3 none 4, .run 3 none 4]
    (handle ∈ (build c spin []).handles [.step, .pause] ∧ s.switches.isThrown handle = false) ∧
    s.run 5 (some 7) 9 = (some .paused, ((s.run 5 none 1).2.cancel handle).pause) ∧
    (let s' := (s.cancel handle).calls [.step, .rewind]
     s'.run 3 none 1 = (some .paused, s'.start.pause)) ∧
    s.pausedRuns later = 1 ∧ s.pausedRuns later ≤ s.cancellations later := by
  intro c spin s handle later
  have hmem : handle ∈ (build c spin []).handles [.step, .pause] := by decide
  have hlive : s.switches.isThrown handle = false := by decide
  obtain ⟨hhandles, -, -, -, hcount⟩ := handles_pause_runs c spin [] [.step, .pause]
  obtain ⟨hgoing, hnext⟩ := (hhandles handle hmem).2 hlive
  refine ⟨⟨hmem, hlive⟩, ?_, ?_, by decide, ?_⟩
  · have hnone : (s.run 5 none 1).1 = none := by decide
    have hrun : s.run 5 none 1 = (none, (s.run 5 none 1).2) := by rw [← hnone]
    exact hgoing 5 1 7 9 _ hrun (by decide) (by decide) (by decide)
  · exact hnext [.step, .rewind] (by decide) (by decide) (by decide) (by decide) 3 none 0
  · exact hcount later

end Session

end SeatMachine
