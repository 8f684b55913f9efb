import Mathlib.Data.ENat.Lattice
import SeatMachine.Proofs.Session.Coherence
import SeatMachine.Proofs.Session.EarlyFinish
/-!
# Ticking

A run that is active goes on tick by tick until a tick ends the attempt. `ticksNeeded` is the number of
ticks this takes, infinite if no tick ever does, and `afterTicks` the session on the way there. Before that
number every tick advances and leaves the run active (`Active.afterTicks`), and the last one ends the
attempt (`Active.last_tick`).

What ticking or an immediate run with a limit comes to depends on whether the limit reaches that number:
`ticks_of_lt` and `ticks_of_eq`, `runImmediately_of_lt` and `runImmediately_of_eq`. For a new session
`runImmediately_build` says the same in terms of the course of its attempt.
-/
namespace SeatMachine.Session

variable {s : Session}

/-! ## Driving -/

/-- What an attempt that ends now reports: its completion, if it has a sink and has succeeded. -/
def reported (s : Session) : List Completion :=
  if s.sink.isSome && s.judge.success then
    [{ challengeId := s.challenge.id
       stepCount := s.judge.stepCount
       instructionCount := s.program.instructionCount
       drive := s.drive?.getD .step }]
  else []

/-- All that an end does: whatever the sink answers, the verdict stays and the completion is reported. -/
theorem finish_eq_reported (s : Session) :
    s.finish = (.ended (.finished s.judge),
      { s with status := .finished, verdict := some s.judge, completions := s.completions ++ s.reported }) := by
  unfold finish report reported
  dsimp only
  by_cases hsuccess : s.judge.success = true
  · cases hsink : s.sink with
    | none => simp [hsuccess]
    | some sink =>
      simp only [hsuccess, Option.isSome_some, Bool.and_self, if_true]
      split <;> rfl
  · simp [hsuccess]

/-- Driving changes the machine and how the attempt stands, and maybe reports. -/
theorem advance_eq (s : Session) : ∃ status lastFault verdict completions,
    s.advance.2 = { s with machine := s.machine.step.2, status, lastFault, verdict, completions } := by
  have hfinish := finish_eq_reported { s with machine := s.machine.step.2 }
  unfold advance
  dsimp only at hfinish ⊢
  rw [hfinish]
  split
  · exact ⟨_, _, _, _, rfl⟩
  · split
    · exact ⟨_, _, _, _, rfl⟩
    · split <;> exact ⟨_, _, _, _, rfl⟩

theorem advance_switches (s : Session) (switches : Switchboard) :
    { s with switches }.advance = (s.advance.1, { s.advance.2 with switches }) := by
  have hfinish := finish_eq_reported { s with machine := s.machine.step.2 }
  have hfinish' := finish_eq_reported { s with machine := s.machine.step.2, switches }
  unfold advance
  dsimp only at hfinish hfinish' ⊢
  rw [hfinish, hfinish']
  split
  · rfl
  · split
    · rfl
    · split <;> rfl

theorem tick_switches (s : Session) (switches : Switchboard) :
    { s with switches }.tick = (s.tick.1, { s.tick.2 with switches }) := by
  unfold tick
  dsimp only
  rw [advance_switches]
  split <;> rfl

theorem start_of_ending?_eq_none (h : s.ending? = none) :
    s.start = { s with ran := true, status := .running } := by
  unfold start
  rw [h]

theorem start_of_ending?_eq_some {ending : Ending} (h : s.ending? = some ending) : s.start = s := by
  unfold start
  rw [h]

/-! ## Active runs -/

structure Active (s : Session) : Prop extends Coherent s where
  status_eq : s.status = .running

theorem Coherent.active_start (h : Coherent s) (he : s.ending? = none) : Active s.start :=
  ⟨h.start, by rw [start_of_ending?_eq_none he]⟩

namespace Active

theorem ending?_eq (h : Active s) : s.ending? = none :=
  Coherent.ending?_of_running h.status_eq

theorem tick_eq (h : Active s) : s.tick = (some s.advance.1, s.advance.2) := by
  simp only [tick, h.status_eq, if_true]

/-- A tick of an active run advances, which is a step of the machine and nothing else, or it ends the
attempt. -/
theorem tick_cases (h : Active s) :
    (s.tick = (some .advanced, { s with machine := s.machine.step.2 }) ∧ Active s.tick.2) ∨
    ∃ ending, s.tick.1 = some (.ended ending) ∧ s.tick.2.ending? = some ending := by
  have hu := h.underway_tick h.status_eq
  have hreply := fst_advance h.machine_program
  have hending := ending?_advance h.machine_program
  rw [h.tick_eq]
  obtain ⟨-, ea⟩ | ⟨e, -⟩ | ⟨fault, e, -⟩ := s.advance_cases h.machine_program
  · refine Or.inl ⟨?_, hu.advance, ?_⟩
    · simp only [ea, h.status_eq, if_true, ← hu.lastFault_eq]
    · simp only [ea, h.status_eq, if_true]
  · exact Or.inr ⟨_, by rw [hreply, e]; rfl, by rw [hending, e]⟩
  · exact Or.inr ⟨_, by rw [hreply, e]; rfl, by rw [hending, e]⟩

end Active

/-! ## Ticks one after the other -/

def afterTicks (s : Session) (k : Nat) : Session :=
  (fun s => s.tick.2)^[k] s

@[simp]
theorem afterTicks_zero (s : Session) : s.afterTicks 0 = s := rfl

theorem afterTicks_succ (s : Session) (k : Nat) : s.afterTicks (k + 1) = (s.afterTicks k).tick.2 :=
  Function.iterate_succ_apply' _ k s

/-- How many ticks it takes until the attempt is over; infinitely many if no number of them does. -/
noncomputable def ticksNeeded (s : Session) : ℕ∞ :=
  ⨅ (n : ℕ) (_ : (s.afterTicks n).ending?.isSome), (n : ℕ∞)

theorem le_ticksNeeded_iff {a : ℕ} :
    (a : ℕ∞) ≤ s.ticksNeeded ↔ ∀ n, (s.afterTicks n).ending?.isSome → a ≤ n := by
  simp only [ticksNeeded, le_iInf₂_iff, Nat.cast_le]

theorem ticksNeeded_eq_zero {ending : Ending} (h : s.ending? = some ending) : s.ticksNeeded = 0 := by
  have hle : s.ticksNeeded ≤ (0 : ℕ) := iInf₂_le 0 (by simp [h])
  exact le_antisymm hle zero_le

/-- A tick of an attempt that is not over is the first of those needed. -/
theorem ticksNeeded_succ (h : s.ending? = none) : s.ticksNeeded = s.tick.2.ticksNeeded + 1 := by
  refine ENat.eq_of_forall_natCast_le_iff fun a => ?_
  cases a with
  | zero => simp
  | succ a =>
    have hcancel : ((a + 1 : ℕ) : ℕ∞) ≤ s.tick.2.ticksNeeded + 1 ↔ (a : ℕ∞) ≤ s.tick.2.ticksNeeded := by
      rw [Nat.cast_add_one]
      exact ENat.add_le_add_iff_right ENat.one_ne_top
    rw [hcancel, le_ticksNeeded_iff, le_ticksNeeded_iff]
    constructor
    · intro hle n hn
      exact Nat.le_of_succ_le_succ (hle (n + 1) hn)
    · intro hle n hn
      cases n with
      | zero => simp [h] at hn
      | succ n => exact Nat.succ_le_succ (hle n hn)

theorem lt_ticksNeeded {k : ℕ} (h : ((k + 1 : ℕ) : ℕ∞) ≤ s.ticksNeeded) : (k : ℕ∞) < s.ticksNeeded :=
  lt_of_lt_of_le (by exact_mod_cast Nat.lt_succ_self k) h

theorem lt_ticksNeeded_of_eq {k : ℕ} (h : s.ticksNeeded = (k + 1 : ℕ)) : (k : ℕ∞) < s.ticksNeeded :=
  lt_ticksNeeded h.ge

namespace Active

variable {k : ℕ}

/-- An active run that is over within a limit needs at least one tick. -/
theorem exists_ticksNeeded_eq (h : Active s) {limit : ℕ} (hle : s.ticksNeeded ≤ limit) :
    ∃ k, k < limit ∧ s.ticksNeeded = (k + 1 : ℕ) := by
  rw [ticksNeeded_succ h.ending?_eq] at hle ⊢
  generalize s.tick.2.ticksNeeded = rest at hle ⊢
  cases rest with
  | top =>
    rw [top_add, top_le_iff] at hle
    exact absurd hle (ENat.natCast_ne_top limit)
  | coe k =>
    norm_cast at hle
    exact ⟨k, hle, by norm_cast⟩

/-- As long as more ticks are needed than were done, all of them advanced. -/
theorem afterTicks (h : Active s) : ∀ {k : ℕ}, (k : ℕ∞) < s.ticksNeeded →
    Active (s.afterTicks k) ∧ s.ticksNeeded = (s.afterTicks k).ticksNeeded + k ∧
      s.afterTicks k = { s with machine := s.machine.after k }
  | 0, _ => ⟨h, by simp, rfl⟩
  | k + 1, hk => by
    obtain ⟨hactive, hneeded, heq⟩ := h.afterTicks (lt_ticksNeeded hk.le)
    have hsucc := ticksNeeded_succ hactive.ending?_eq
    rw [afterTicks_succ]
    obtain ⟨htick, hnext⟩ | ⟨ending, -, hending⟩ := hactive.tick_cases
    · refine ⟨hnext, ?_, ?_⟩
      · rw [hneeded, hsucc, Nat.cast_add_one, add_assoc, add_comm (1 : ℕ∞)]
      · rw [htick, heq]; rfl
    · -- One tick too many: the attempt was over with it.
      rw [hneeded, hsucc, ticksNeeded_eq_zero hending, zero_add, add_comm] at hk
      exact absurd hk (lt_irrefl _)

theorem tick_of_lt (h : Active s) (hk : ((k + 1 : ℕ) : ℕ∞) < s.ticksNeeded) :
    (s.afterTicks k).tick = (some .advanced, s.afterTicks (k + 1)) := by
  have hlt := lt_ticksNeeded hk.le
  rw [afterTicks_succ]
  obtain ⟨htick, -⟩ | ⟨ending, -, hending⟩ := (h.afterTicks hlt).1.tick_cases
  · rw [htick]
  · have hopen := (h.afterTicks hk).1.ending?_eq
    rw [afterTicks_succ, hending] at hopen
    cases hopen

/-- The last tick needed ends the attempt. -/
theorem last_tick (h : Active s) (hk : s.ticksNeeded = (k + 1 : ℕ)) :
    ∃ ending, (s.afterTicks k).tick = (some (.ended ending), s.afterTicks (k + 1)) ∧
      (s.afterTicks (k + 1)).ending? = some ending := by
  obtain ⟨hactive, hneeded, -⟩ := h.afterTicks (lt_ticksNeeded_of_eq hk)
  rw [afterTicks_succ]
  obtain ⟨-, hnext⟩ | ⟨ending, hreply, hending⟩ := hactive.tick_cases
  · -- An attempt that goes on needs yet another tick.
    rw [hneeded, ticksNeeded_succ hactive.ending?_eq, ticksNeeded_succ hnext.ending?_eq] at hk
    generalize (s.afterTicks k).tick.2.tick.2.ticksNeeded = rest at hk
    cases rest with
    | top =>
      simp only [top_add] at hk
      exact absurd hk (ENat.top_ne_natCast _)
    | coe n => norm_cast at hk; omega
  · exact ⟨ending, by rw [← hreply], hending⟩

/-- Ticks that are needed are done one by one by `ticksAfter`. -/
theorem ticksAfter_add (h : Active s) (calls : Nat) (last : Option StepReply)
    (hlast : last.bind StepReply.ending? = none) :
    ∀ {k : ℕ} (rest : Nat), (k : ℕ∞) < s.ticksNeeded →
      ∃ last', last'.bind StepReply.ending? = none ∧
        s.ticksAfter calls last (k + rest) = (s.afterTicks k).ticksAfter (calls + k) last' rest
  | 0, rest, _ => ⟨last, hlast, by rw [Nat.zero_add]; rfl⟩
  | k + 1, rest, hk => by
    obtain ⟨last', -, e⟩ := h.ticksAfter_add calls last hlast (rest + 1) (lt_ticksNeeded hk.le)
    refine ⟨some .advanced, rfl, ?_⟩
    rw [Nat.add_assoc, Nat.add_comm 1, e, ticksAfter, h.tick_of_lt hk]
    rfl

/-- Fewer ticks than needed leave the run active. -/
theorem ticks_of_lt (h : Active s) (hk : (k : ℕ∞) < s.ticksNeeded) :
    ∃ last, last.bind StepReply.ending? = none ∧ s.ticks k = (k, last, s.afterTicks k) := by
  obtain ⟨last, hlast, e⟩ := h.ticksAfter_add 0 none rfl 0 hk
  refine ⟨last, hlast, ?_⟩
  rw [Nat.zero_add] at e
  exact e

/-- Otherwise as many as are needed end the attempt. -/
theorem ticks_of_eq (h : Active s) (hneeded : s.ticksNeeded = (k + 1 : ℕ)) {limit : ℕ} (hk : k < limit)
    {ending : Ending} (hending : (s.afterTicks (k + 1)).ending? = some ending) :
    s.ticks limit = (k + 1, some (.ended ending), s.afterTicks (k + 1)) := by
  have hlt := lt_ticksNeeded_of_eq hneeded
  obtain ⟨ending', htick, hending'⟩ := h.last_tick hneeded
  obtain rfl : ending = ending' := Option.some.inj (hending.symm.trans hending')
  obtain ⟨rest, rfl⟩ : ∃ rest, limit = k + (rest + 1) := ⟨limit - k - 1, by omega⟩
  obtain ⟨last, -, e⟩ := h.ticksAfter_add 0 none rfl (rest + 1) hlt
  rw [ticks, e, ticksAfter, htick, Nat.zero_add]

end Active

/-! ## Immediate runs -/

/-- A run that is started and not over yet has done steps of the machine and nothing else. -/
theorem afterTicks_start (h : Coherent s) (he : s.ending? = none) {k : ℕ}
    (hk : (k : ℕ∞) < s.start.ticksNeeded) :
    s.start.afterTicks k = { s with machine := s.machine.after k, ran := true, status := .running } := by
  rw [((h.active_start he).afterTicks hk).2.2, start_of_ending?_eq_none he]

theorem runImmediately_of_lt (h : Coherent s) (he : s.ending? = none) {limit : ℕ}
    (hlt : (limit : ℕ∞) < s.start.ticksNeeded) :
    s.runImmediately limit = (.paused, (s.start.afterTicks limit).pause) := by
  obtain ⟨last, hlast, e⟩ := (h.active_start he).ticks_of_lt hlt
  unfold runImmediately
  rw [e]
  match last, hlast with
  | none, _ => rfl
  | some .advanced, _ => rfl
  | some .busy, _ => rfl

theorem runImmediately_of_eq (h : Coherent s) (he : s.ending? = none) {k limit : ℕ}
    (hneeded : s.start.ticksNeeded = (k + 1 : ℕ)) (hk : k < limit) {ending : Ending}
    (hending : (s.start.afterTicks (k + 1)).ending? = some ending) :
    s.runImmediately limit = (.ended ending, s.start.afterTicks (k + 1)) := by
  unfold runImmediately
  rw [(h.active_start he).ticks_of_eq hneeded hk hending]

/-! ## On the course of an attempt -/

section Course

variable {c : Challenge} {program : Program} {policy : Policy} {i : ℕ}

theorem OnCourse.afterTicks (hc : OnCourse c program policy s i) (h : Active s) :
    ∀ {k : ℕ}, (k : ℕ∞) ≤ s.ticksNeeded → OnCourse c program policy (s.afterTicks k) (i + k)
  | 0, _ => hc
  | k + 1, hk => by
    have hlt := lt_ticksNeeded hk
    have htick : (s.afterTicks k).tick.1 = some (s.afterTicks k).advance.1 := by
      rw [(h.afterTicks hlt).1.tick_eq]
    obtain ⟨-, -, hnext, -⟩ := (hc.afterTicks h hlt.le).drives (.tick htick)
    rw [afterTicks_succ]
    exact hnext

/-- All that an immediate run of a new session can come to: no step within the limit ends the attempt, or
the first one that does is the last of the run. -/
theorem runImmediately_build (c : Challenge) (program : Program) (settings : List Setting) (limit : ℕ) :
    let s₀ := build c program settings
    ((s₀.runImmediately limit).1 = .paused ∧ ∀ j, j ≤ limit → c.endingAt program s₀.policy j = none) ∨
    ∃ k ending, k < limit ∧ (s₀.runImmediately limit).1 = .ended ending ∧
      (∀ j, j ≤ k → c.endingAt program s₀.policy j = none) ∧
      c.endingAt program s₀.policy (k + 1) = some ending ∧
      (s₀.runImmediately limit).2.machine.toSnapshot =
        (Snapshot.start c.initialArray program).after program (k + 1) := by
  intro s₀
  have h : Coherent s₀ := coherent_build c program settings
  have hc : OnCourse c program s₀.policy s₀ 0 := onCourse_build c program settings
  have he : s₀.ending? = none := hc.ending_eq
  have hactive := h.active_start he
  have hplace : ∀ {k : ℕ}, (k : ℕ∞) ≤ s₀.start.ticksNeeded →
      OnCourse c program s₀.policy (s₀.start.afterTicks k) k := fun {k} hk => by
    have hk' := hc.start.afterTicks hactive hk
    rwa [Nat.zero_add] at hk'
  rcases lt_or_ge (limit : ℕ∞) s₀.start.ticksNeeded with hlt | hle
  · refine Or.inl ⟨by rw [runImmediately_of_lt h he hlt], fun j hj => ?_⟩
    exact (hplace hlt.le).goesOn (hactive.afterTicks hlt).1.ending?_eq hj
  · obtain ⟨k, hk, hneeded⟩ := hactive.exists_ticksNeeded_eq hle
    obtain ⟨ending, -, hending⟩ := hactive.last_tick hneeded
    have hlast := hplace hneeded.ge
    rw [runImmediately_of_eq h he hneeded hk hending]
    refine Or.inr ⟨k, ending, hk, rfl, fun j hj => hlast.before j (Nat.lt_succ_of_le hj), ?_, ?_⟩
    · exact hlast.ending_eq.symm.trans hending
    · rw [hlast.isAt.snapshot, hlast.machine_eq]

end Course

end SeatMachine.Session
