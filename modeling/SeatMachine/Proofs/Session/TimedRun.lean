import SeatMachine.Proofs.Session.Ticking
/-!
# Timed runs

The timer of a run goes off again and again, and each time the run looks at its switch and then ticks. So
a run is nothing but ticks, and two numbers say what becomes of it: `ticksNeeded`, after how many the
attempt is over, and `ticksAllowed`, after how many the switch is seen thrown. The smaller of them is the
number of ticks that are done, and it decides whether the run ends the attempt or is paused:
`run_cases` says all that a run can do.

The main theorem is `run_eq_ticks`.
-/
namespace SeatMachine.Session

variable {s : Session} {interval : Nat} {cancelAfter : Option Nat} {k : ℕ}

/-! ## What the switch allows -/

/-- How many ticks a run does before it sees its switch thrown; infinitely many if nobody throws it. -/
def ticksAllowed (s : Session) (interval : Nat) (cancelAfter : Option Nat) : ℕ∞ :=
  if s.switches.isPresentThrown then 0
  else match cancelAfter with
    | none => ⊤
    | some moment => (moment / max interval 1 : ℕ)

/-- The switch is seen thrown at alarm `k`, the first being alarm zero, when the ticks that it allows are
used up. -/
theorem isStopped_iff (s : Session) (interval : Nat) (cancelAfter : Option Nat) (k : ℕ) :
    (s.switches.isPresentThrown || isDue cancelAfter ((k + 1) * max interval 1)) = true ↔
      s.ticksAllowed interval cancelAfter ≤ k := by
  unfold ticksAllowed
  by_cases ht : s.switches.isPresentThrown = true
  · simp [ht]
  · cases cancelAfter with
    | none => simp [ht, isDue]
    | some moment =>
      have hpos : 0 < max interval 1 := by omega
      simp only [ht, isDue, Bool.false_or, decide_eq_true_eq, Bool.false_eq_true, if_false, Nat.cast_le]
      rw [← Nat.div_lt_iff_lt_mul hpos, Nat.lt_succ_iff]

namespace Active

theorem switches_afterTicks (h : Active s) (hk : (k : ℕ∞) < s.ticksNeeded) :
    (s.afterTicks k).switches = s.switches := by
  rw [(h.afterTicks hk).2.2]

theorem await_add (h : Active s) : ∀ {k : ℕ} (rest : Nat), (k : ℕ∞) < s.ticksNeeded →
    (k : ℕ∞) ≤ s.ticksAllowed interval cancelAfter →
      await (max interval 1) cancelAfter (k + rest) (max interval 1) s =
        await (max interval 1) cancelAfter rest ((k + 1) * max interval 1) (s.afterTicks k)
  | 0, rest, _, _ => by rw [Nat.zero_add, Nat.zero_add, Nat.one_mul]; rfl
  | k + 1, rest, hk, hallowed => by
    have hle : (k : ℕ∞) ≤ (k + 1 : ℕ) := by exact_mod_cast Nat.le_succ k
    have hlt := lt_ticksNeeded hk.le
    have hgoes : ¬ ((s.afterTicks k).switches.isPresentThrown ||
        isDue cancelAfter ((k + 1) * max interval 1)) = true := by
      rw [h.switches_afterTicks hlt, isStopped_iff _ interval, not_le]
      exact lt_of_lt_of_le (by exact_mod_cast Nat.lt_succ_self k) hallowed
    rw [Nat.add_assoc, Nat.add_comm 1, h.await_add (rest + 1) hlt (hle.trans hallowed), await, if_neg hgoes,
      h.tick_of_lt hk, Nat.succ_mul (k + 1)]

/-- All that waiting for the timer can do: the alarms run out, the switch is seen thrown, or the last
tick needed is done. -/
theorem await_cases (h : Active s) (interval : Nat) (cancelAfter : Option Nat) (alarms : ℕ) :
    let allowed := s.ticksAllowed interval cancelAfter
    let result := await (max interval 1) cancelAfter alarms (max interval 1) s
    ((alarms : ℕ∞) < s.ticksNeeded ∧ (alarms : ℕ∞) ≤ allowed ∧ result = (none, s.afterTicks alarms)) ∨
    (∃ k : ℕ, k < alarms ∧ allowed = k ∧ (k : ℕ∞) < s.ticksNeeded ∧
      result = (some .paused, (s.afterTicks k).pause)) ∨
    (∃ (k : ℕ) (ending : Ending), k < alarms ∧ (k : ℕ∞) < allowed ∧ s.ticksNeeded = (k + 1 : ℕ) ∧
      (s.afterTicks (k + 1)).ending? = some ending ∧
      result = (some (.ended ending), s.afterTicks (k + 1))) := by
  intro allowed result
  by_cases hgoing : (alarms : ℕ∞) < s.ticksNeeded ∧ (alarms : ℕ∞) ≤ allowed
  · refine Or.inl ⟨hgoing.1, hgoing.2, ?_⟩
    exact h.await_add 0 hgoing.1 hgoing.2
  · refine Or.inr ?_
    rcases lt_or_ge allowed s.ticksNeeded with hlt | hge
    · -- The switch is seen thrown at alarm `k`, and there are alarms enough for that.
      obtain ⟨k, hk⟩ := ENat.ne_top_iff_exists.1 hlt.ne_top
      rw [← hk] at hlt hgoing
      have hka : k < alarms := by
        by_contra hle
        have hcast : (alarms : ℕ∞) ≤ k := by exact_mod_cast Nat.le_of_not_lt hle
        exact hgoing ⟨lt_of_le_of_lt hcast hlt, hcast⟩
      obtain ⟨rest, rfl⟩ : ∃ rest, alarms = k + (rest + 1) := ⟨alarms - k - 1, by omega⟩
      refine Or.inl ⟨k, hka, hk.symm, hlt, ?_⟩
      have hstops := (isStopped_iff s interval cancelAfter k).2 hk.symm.le
      rw [← h.switches_afterTicks hlt] at hstops
      simp only [result]
      rw [h.await_add (rest + 1) hlt hk.le, await, if_pos hstops]
    · have hle : s.ticksNeeded ≤ alarms := by
        by_contra hlt
        exact hgoing ⟨not_le.1 hlt, (not_le.1 hlt).le.trans hge⟩
      obtain ⟨k, hka, hneeded⟩ := h.exists_ticksNeeded_eq hle
      obtain ⟨ending, htick, hending⟩ := h.last_tick hneeded
      have hlt := lt_ticksNeeded_of_eq hneeded
      have hallowed : (k : ℕ∞) < allowed := lt_of_lt_of_le hlt hge
      obtain ⟨rest, rfl⟩ : ∃ rest, alarms = k + (rest + 1) := ⟨alarms - k - 1, by omega⟩
      refine Or.inr ⟨k, ending, hka, hallowed, hneeded, hending, ?_⟩
      have hgoes := (isStopped_iff s interval cancelAfter k).not.2 (not_le.2 hallowed)
      rw [← h.switches_afterTicks hlt] at hgoes
      simp only [result]
      rw [h.await_add (rest + 1) hlt hallowed.le, await, if_neg hgoes, htick]

end Active

/-! ## Runs -/

theorem run_of_ending?_eq_some {ending : Ending} (h : s.ending? = some ending) (alarms : Nat) :
    s.run interval cancelAfter alarms = (some (.ended ending), s) := by
  simp only [run, start_of_ending?_eq_some h, h]

theorem run_cases (h : Coherent s) (he : s.ending? = none) (interval : Nat) (cancelAfter : Option Nat)
    (alarms : ℕ) :
    let needed := s.start.ticksNeeded
    let allowed := s.ticksAllowed interval cancelAfter
    let ticked := s.start.afterTicks
    let result := s.run interval cancelAfter alarms
    ((alarms : ℕ∞) < needed ∧ (alarms : ℕ∞) ≤ allowed ∧ result = (none, ticked alarms)) ∨
    (∃ k : ℕ, k < alarms ∧ allowed = k ∧ (k : ℕ∞) < needed ∧ result = (some .paused, (ticked k).pause)) ∨
    (∃ (k : ℕ) (ending : Ending), k < alarms ∧ (k : ℕ∞) < allowed ∧ needed = (k + 1 : ℕ) ∧
      (ticked (k + 1)).ending? = some ending ∧ result = (some (.ended ending), ticked (k + 1))) := by
  have hactive := h.active_start he
  have hallowed : s.start.ticksAllowed interval cancelAfter = s.ticksAllowed interval cancelAfter := by
    rw [start_of_ending?_eq_none he]; rfl
  have hrun : s.run interval cancelAfter alarms =
      await (max interval 1) cancelAfter alarms (max interval 1) s.start := by
    simp only [run, hactive.ending?_eq]
  have hcases := hactive.await_cases interval cancelAfter alarms
  rw [hallowed] at hcases
  rw [hrun]
  exact hcases

theorem pause_afterTicks (h : Coherent s) (he : s.ending? = none) (hk : (k : ℕ∞) < s.start.ticksNeeded) :
    (s.start.afterTicks k).pause =
      { s with
        machine := s.machine.after k
        ran := true
        status := .paused
        switches := (s.switches.throw s.pauseHandle).renew } := by
  rw [afterTicks_start h he hk]
  rfl

/-! ## Ticking until the end -/

/-- What ticking comes to, as the reply of a run: none as long as no tick has ended the attempt. -/
def untilEnd (s : Session) (limit : Nat) : Option RunReply × Session :=
  let result := s.ticks limit
  ((result.2.1.bind StepReply.ending?).map .ended, result.2.2)

theorem Active.untilEnd_of_lt (h : Active s) (hk : (k : ℕ∞) < s.ticksNeeded) :
    s.untilEnd k = (none, s.afterTicks k) := by
  obtain ⟨last, hlast, e⟩ := h.ticks_of_lt hk
  simp only [untilEnd, e, hlast, Option.map_none]

theorem Active.untilEnd_of_eq (h : Active s) (hneeded : s.ticksNeeded = (k + 1 : ℕ)) {limit : ℕ}
    (hk : k < limit) {ending : Ending} (hending : (s.afterTicks (k + 1)).ending? = some ending) :
    s.untilEnd limit = (some (.ended ending), s.afterTicks (k + 1)) := by
  simp only [untilEnd, h.ticks_of_eq hneeded hk hending]
  rfl

theorem run_eq_untilEnd (h : Coherent s) (he : s.ending? = none) {alarms : ℕ}
    (hallowed : (alarms : ℕ∞) ≤ s.ticksAllowed interval cancelAfter) :
    s.run interval cancelAfter alarms = s.start.untilEnd alarms := by
  have hactive := h.active_start he
  obtain ⟨hlt, -, e⟩ | ⟨k, hk, hallowed', -, -⟩ | ⟨k, ending, hk, -, hneeded, hending, e⟩ :=
    run_cases h he interval cancelAfter alarms
  · rw [e, hactive.untilEnd_of_lt hlt]
  · rw [hallowed', Nat.cast_le] at hallowed
    omega
  · rw [e, hactive.untilEnd_of_eq hneeded hk hending]

/-- A run whose switch is seen thrown is an immediate run with the ticks that the switch allows. -/
theorem run_eq_runImmediately (h : Coherent s) (he : s.ending? = none) {alarms : ℕ}
    (hallowed : s.ticksAllowed interval cancelAfter = k) (hk : k < alarms) :
    s.run interval cancelAfter alarms = (some (s.runImmediately k).1, (s.runImmediately k).2) := by
  obtain ⟨-, hle, -⟩ | ⟨j, -, hj, hlt, e⟩ | ⟨j, ending, -, hj, hneeded, hending, e⟩ :=
    run_cases h he interval cancelAfter alarms
  · rw [hallowed, Nat.cast_le] at hle
    omega
  · obtain rfl : k = j := by rw [hallowed] at hj; exact_mod_cast hj
    rw [e, runImmediately_of_lt h he hlt]
  · rw [hallowed, Nat.cast_lt] at hj
    rw [e, runImmediately_of_eq h he hneeded hj hending]

theorem run_of_isPresentThrown (h : Coherent s) (he : s.ending? = none)
    (hthrown : s.switches.isPresentThrown = true) (alarms : Nat) :
    s.run interval cancelAfter (alarms + 1) = (some .paused, s.start.pause) := by
  have hallowed : s.ticksAllowed interval cancelAfter = (0 : ℕ) := by simp [ticksAllowed, hthrown]
  rw [run_eq_runImmediately h he hallowed (Nat.succ_pos alarms)]
  rfl

/-! ## Going on -/

/-- The book-keeping of ticks has no part in what they come to, and neither have the switches. -/
theorem ticksAfter_congr (switches : Switchboard) : ∀ (limit : Nat) (s : Session) (calls calls' : Nat)
    (last last' : Option StepReply), last.bind StepReply.ending? = none →
      last'.bind StepReply.ending? = none →
      let result := s.ticksAfter calls last limit
      let result' := { s with switches }.ticksAfter calls' last' limit
      result'.2.1.bind StepReply.ending? = result.2.1.bind StepReply.ending? ∧
        result'.2.2 = { result.2.2 with switches }
  | 0, _, _, _, _, _, hlast, hlast' => ⟨hlast'.trans hlast.symm, rfl⟩
  | limit + 1, s, calls, calls', last, last', _, _ => by
    simp only [ticksAfter]
    rw [tick_switches]
    rcases s.tick with ⟨_ | _ | _ | _, next⟩
    · exact ⟨rfl, rfl⟩
    · exact ticksAfter_congr switches limit next _ _ _ _ rfl rfl
    · exact ⟨rfl, rfl⟩
    · exact ⟨rfl, rfl⟩

theorem Active.untilEnd_add (h : Active s) (hk : (k : ℕ∞) < s.ticksNeeded) (switches : Switchboard)
    (limit : Nat) :
    { s.afterTicks k with switches }.untilEnd limit =
      ((s.untilEnd (k + limit)).1, { (s.untilEnd (k + limit)).2 with switches }) := by
  obtain ⟨last, hlast, e⟩ := h.ticksAfter_add 0 none rfl limit hk
  obtain ⟨hreply, hsession⟩ := ticksAfter_congr switches limit (s.afterTicks k) (0 + k) 0 last none hlast rfl
  simp only [untilEnd, ticks, e, hreply, hsession]

/-- Each tick that is done is a step of the machine, and as many are done as are needed, unless the limit
is reached before. -/
theorem Active.ticks_count (h : Active s) (limit : ℕ) :
    ((s.ticks limit).1 : ℕ∞) = min s.ticksNeeded limit ∧
      (s.ticks limit).2.2.machine = s.machine.after (s.ticks limit).1 ∧
      ((s.untilEnd limit).1.isSome = true ↔ s.ticksNeeded ≤ limit) := by
  rcases lt_or_ge (limit : ℕ∞) s.ticksNeeded with hlt | hge
  · obtain ⟨last, -, e⟩ := h.ticks_of_lt hlt
    refine ⟨?_, ?_, ?_⟩
    · rw [e, min_eq_right hlt.le]
    · rw [e, (h.afterTicks hlt).2.2]
    · simp [h.untilEnd_of_lt hlt, hlt]
  · obtain ⟨k, hk, hneeded⟩ := h.exists_ticksNeeded_eq hge
    obtain ⟨ending, -, hending⟩ := h.last_tick hneeded
    have hlt := lt_ticksNeeded_of_eq hneeded
    have e := h.ticks_of_eq hneeded hk hending
    refine ⟨?_, ?_, ?_⟩
    · rw [e, min_eq_left hge, hneeded]
    · obtain ⟨hactive, -, heq⟩ := h.afterTicks hlt
      rw [e, afterTicks_succ, hactive.tick_eq, (s.afterTicks k).advance_frame.1, heq]
      rfl
    · simp [h.untilEnd_of_eq hneeded hk hending, hge]

theorem runImmediately_eq_paused_iff (h : Coherent s) (he : s.ending? = none) (limit : ℕ) :
    (s.runImmediately limit).1 = .paused ↔ (limit : ℕ∞) < s.start.ticksNeeded := by
  rcases lt_or_ge (limit : ℕ∞) s.start.ticksNeeded with hlt | hge
  · simp [runImmediately_of_lt h he hlt, hlt]
  · obtain ⟨k, hk, hneeded⟩ := (h.active_start he).exists_ticksNeeded_eq hge
    obtain ⟨ending, -, hending⟩ := (h.active_start he).last_tick hneeded
    simp [runImmediately_of_eq h he hneeded hk hending, hge]

theorem machine_runImmediately (s : Session) (limit : Nat) :
    (s.runImmediately limit).2.machine = (s.start.ticks limit).2.2.machine := by
  unfold runImmediately
  split <;> rename_i e <;> rw [e]
  rfl

/-- A run that was paused is ready to go on, and left alone it goes on where it was paused. -/
theorem run_of_paused (h : Coherent s) (he : s.ending? = none) {alarms : ℕ} {paused : Session}
    (hrun : s.run interval cancelAfter alarms = (some .paused, paused)) :
    paused.status = .paused ∧ paused.switches = (s.switches.throw s.pauseHandle).renew ∧
      ∃ k : ℕ, (k : ℕ∞) < s.start.ticksNeeded ∧ s.ticksAllowed interval cancelAfter = k ∧
        paused.machine = s.machine.after k ∧ ∀ interval' alarms',
          let rest := s.start.untilEnd (k + alarms')
          paused.run interval' none alarms' = (rest.1, { rest.2 with switches := paused.switches }) := by
  have hactive := h.active_start he
  obtain ⟨-, -, e⟩ | ⟨k, -, hallowed, hk, e⟩ | ⟨k, ending, -, -, -, -, e⟩ :=
    run_cases h he interval cancelAfter alarms
  · rw [e] at hrun; cases hrun
  · have heq := pause_afterTicks h he hk
    obtain rfl : (s.start.afterTicks k).pause = paused := (Prod.mk.inj (e.symm.trans hrun)).2
    refine ⟨by rw [heq], by rw [heq], k, hk, hallowed, by rw [heq], fun interval' alarms' => ?_⟩
    have hopen : (s.start.afterTicks k).pause.ending? = none := by rw [heq]; rfl
    have hstart : (s.start.afterTicks k).pause.start =
        { s.start.afterTicks k with switches := (s.start.afterTicks k).pause.switches } := by
      rw [start_of_ending?_eq_none hopen, heq, afterTicks_start h he hk]
    have hfresh : (s.start.afterTicks k).pause.ticksAllowed interval' none = ⊤ := by
      simp [ticksAllowed, heq]
    rw [run_eq_untilEnd (hactive.afterTicks hk).1.pause hopen (by rw [hfresh]; exact le_top), hstart]
    exact hactive.untilEnd_add hk _ alarms'
  · rw [e] at hrun; cases hrun

/-- **A timed run is ticking.** Take any session whose attempt is not over, and let `needed` be the number
of ticks after start that it takes to end it. Ticking does that many ticks, each a step of the machine, or
as many as its limit allows. A run whose switch nobody throws is start and ticking, whatever its interval:
reply and session are the same. If the switch is thrown at some moment, the run does the ticks of the
alarms up to that moment, like an immediate run with that limit, and is paused just if more are needed. If
the switch is thrown already, no tick is done. A run that is paused leaves the session paused, with a fresh
switch, and when it is run again, the attempt comes to what uninterrupted ticking comes to. -/
theorem run_eq_ticks (c : Challenge) (program : Program) (settings : List Setting) (ops : List Op) :
    let s := (build c program settings).calls ops
    let needed := s.start.ticksNeeded
    s.ending? = none →
    (∀ limit : ℕ, ((s.start.ticks limit).1 : ℕ∞) = min needed limit ∧
      (s.start.ticks limit).2.2.machine = s.machine.after (s.start.ticks limit).1 ∧
      ((s.start.untilEnd limit).1.isSome = true ↔ needed ≤ limit)) ∧
    (s.switches.isPresentThrown = false →
      (∀ interval alarms, s.run interval none alarms = s.start.untilEnd alarms) ∧
      ∀ interval moment alarms : ℕ,
        let seen := moment / max interval 1
        (alarms ≤ seen → s.run interval (some moment) alarms = s.start.untilEnd alarms) ∧
        (seen < alarms → s.run interval (some moment) alarms =
          (some (s.runImmediately seen).1, (s.runImmediately seen).2)) ∧
        ((s.runImmediately seen).1 = .paused ↔ (seen : ℕ∞) < needed) ∧
        ∃ done : ℕ, (done : ℕ∞) = min needed seen ∧
          (s.runImmediately seen).2.machine = s.machine.after done) ∧
    (s.switches.isPresentThrown = true → ∀ interval cancelAfter alarms,
      s.run interval cancelAfter (alarms + 1) = (some .paused, s.start.pause)) ∧
    (∀ interval cancelAfter alarms paused,
      s.run interval cancelAfter alarms = (some .paused, paused) →
      paused.status = .paused ∧ paused.switches.isPresentThrown = false ∧
      paused.switches = (s.switches.throw s.pauseHandle).renew ∧
      ∃ k : ℕ, (k : ℕ∞) < needed ∧ paused.machine = s.machine.after k ∧ ∀ interval' alarms',
        let rest := s.start.untilEnd (k + alarms')
        paused.run interval' none alarms' = (rest.1, { rest.2 with switches := paused.switches })) := by
  intro s needed he
  have h : Coherent s := coherent_calls c program settings ops
  have hactive := h.active_start he
  have hmachine : s.start.machine = s.machine := by rw [start_of_ending?_eq_none he]
  refine ⟨fun limit => ?_, fun hfresh => ⟨fun interval alarms => ?_, fun interval moment alarms => ?_⟩,
    fun hthrown interval cancelAfter alarms => ?_, fun interval cancelAfter alarms paused hrun => ?_⟩
  · rw [← hmachine]
    exact hactive.ticks_count limit
  · exact run_eq_untilEnd h he (by simp [ticksAllowed, hfresh])
  · have hallowed : s.ticksAllowed interval (some moment) = (moment / max interval 1 : ℕ) := by
      simp [ticksAllowed, hfresh]
    obtain ⟨hcount, hsteps, -⟩ := hactive.ticks_count (moment / max interval 1)
    refine ⟨fun hle => ?_, fun hlt => ?_, runImmediately_eq_paused_iff h he _, _, hcount, ?_⟩
    · exact run_eq_untilEnd h he (by rw [hallowed]; exact_mod_cast hle)
    · exact run_eq_runImmediately h he hallowed hlt
    · rw [machine_runImmediately, hsteps, hmachine]
  · exact run_of_isPresentThrown h he hthrown alarms
  · obtain ⟨hstatus, hswitches, k, hk, -, hmachine, hrest⟩ := run_of_paused h he hrun
    exact ⟨hstatus, by simp [hswitches], hswitches, k, hk, hmachine, hrest⟩

/-- An attempt that needs two more ticks: left alone, paused between its two alarms and run again, and with
a switch that was thrown before. -/
theorem run_eq_ticks_paused_once :
    let c : Challenge := { initialArray := [7, 0], targetArray := [7, 7] }
    let copy : Program := ⟨[.op (.pick .moco), .op (.moveRight .moco), .op (.put .moco)]⟩
    let s := (build c copy [.historyLimit 1, .sink ⟨fun _ => .error "closed"⟩]).calls [.step]
    let thrown := (build c copy []).calls [.cancel ⟨0⟩]
    let ending : RunReply := .ended (.finished ⟨.solved true, 3⟩)
    (s.start.ticksNeeded ≤ (2 : ℕ) ∧ s.run 5 none 9 = s.start.untilEnd 9 ∧
      (s.run 5 none 9).1 = some ending) ∧
    ((1 : ℕ) < s.start.ticksNeeded ∧ (s.run 5 (some 7) 9).1 = some .paused ∧
      ((s.run 5 (some 7) 9).2.run 0 none 4).1 = some ending) ∧
    thrown.run 3 none 1 = (some .paused, thrown.start.pause) := by
  intro c copy s thrown ending
  obtain ⟨hticks, hfresh, -, -⟩ := run_eq_ticks c copy
    [.historyLimit 1, .sink ⟨fun _ => .error "closed"⟩] [.step] (by decide)
  obtain ⟨halone, hcancelled⟩ := hfresh (by decide)
  obtain ⟨-, -, hthrown, -⟩ := run_eq_ticks c copy [] [.cancel ⟨0⟩] (by decide)
  refine ⟨⟨(hticks 2).2.2.1 (by decide), halone 5 9, by decide⟩,
    ⟨(hcancelled 5 7 9).2.2.1.1 (by decide), by decide, by decide⟩, hthrown (by decide) 3 none 0⟩

end SeatMachine.Session
