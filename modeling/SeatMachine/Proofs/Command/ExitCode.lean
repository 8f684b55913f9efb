import SeatMachine.Command.Execution
import SeatMachine.Proofs.Challenge.Judging
import SeatMachine.Proofs.Ledger.Durability
import SeatMachine.Proofs.Ledger.Merging
import SeatMachine.Proofs.Session.Iteration
/-!
# Exit codes

What the exit code of an attempt without a timer means, from the files that it reads to the file that it writes.
Whether there is an attempt at all depends on what can be read: `ReadsProgram` and `ReadsChallenge`. What comes of
it is told by the machine alone, stepped by itself from the start of the program: `attempt_cases`. And what becomes
of the folder is told by the ledger file: `Merges`.

The main theorem is `exit_code_of_attempt`.
-/
namespace SeatMachine.Command

variable {folder folder' : Folder} {attempt : Attempt} {program : Program} {c : Challenge}
  {progress : Option String} {time : UInt64} {limit : Nat} {historyLimit : Option Nat} {answer : Report}
  {lines : Verdict → Session → List String} {α : Type}

/-! ## Loading -/

/-- The file can be read, and the program loads from its text. -/
def ReadsProgram (folder : Folder) (path : String) (program : Program) : Prop :=
  ∃ text, folder.readText path = .ok text ∧ Program.load text = .ok program

/-- The challenge is in the catalog under the id that is asked for, or else loads from the text of the file. -/
def ReadsChallenge (folder : Folder) (attempt : Attempt) (c : Challenge) : Prop :=
  match attempt.challengeId, attempt.challengeFile with
  | some id, _ => Catalog.find id = .ok c
  | none, some path => ∃ text, folder.readText path = .ok text ∧ Challenge.load text = .ok c
  | none, none => False

/-- There is no program or no challenge to make an attempt with. -/
def CannotRead (folder : Folder) (attempt : Attempt) : Prop :=
  (∀ program, ¬ ReadsProgram folder attempt.program program) ∨ ∀ c, ¬ ReadsChallenge folder attempt c

theorem not_cannotRead (hp : ReadsProgram folder attempt.program program) (hc : ReadsChallenge folder attempt c) :
    ¬ CannotRead folder attempt := by
  rintro (hnone | hnone)
  · exact hnone program hp
  · exact hnone c hc

/-- The program and the challenge can be read, or one of them cannot. -/
theorem reads_cases (folder : Folder) (attempt : Attempt) :
    (∃ program c, ReadsProgram folder attempt.program program ∧ ReadsChallenge folder attempt c) ∨
      CannotRead folder attempt := by
  by_cases hp : ∃ program, ReadsProgram folder attempt.program program
  · by_cases hc : ∃ c, ReadsChallenge folder attempt c
    · obtain ⟨program, hp⟩ := hp
      obtain ⟨c, hc⟩ := hc
      exact Or.inl ⟨program, c, hp, hc⟩
    · exact Or.inr (Or.inr (not_exists.1 hc))
  · exact Or.inr (Or.inl (not_exists.1 hp))

/-- Loading finds the one thing that there is, or reports that there is none. -/
def Finds (loaded : Except Report α) (P : α → Prop) : Prop :=
  match loaded with
  | .ok a => ∀ b, P b ↔ b = a
  | .error report => report.exit = .input ∧ ∀ b, ¬ P b

theorem Finds.eq_ok {loaded : Except Report α} {P : α → Prop} {a : α} (h : Finds loaded P) (ha : P a) :
    loaded = .ok a := by
  cases loaded with
  | ok b => rw [(h a).1 ha]
  | error report => exact absurd ha (h.2 a)

theorem finds_loadProgram (folder : Folder) (path : String) :
    Finds (loadProgram folder path) (ReadsProgram folder path) := by
  unfold loadProgram readInput ReadsProgram
  cases folder.readText path with
  | error fault => exact ⟨rfl, by simp⟩
  | ok text =>
    cases hload : Program.load text with
    | error e => simp [Finds, bind, Except.bind, hload, Report.inputError, Report.failure]
    | ok program => simp [Finds, bind, Except.bind, hload, eq_comm]

theorem finds_loadChallenge (folder : Folder) (attempt : Attempt) :
    Finds (loadChallenge folder attempt) (ReadsChallenge folder attempt) := by
  obtain ⟨program, id, file⟩ := attempt
  unfold loadChallenge ReadsChallenge readInput
  cases id with
  | some id =>
    cases hfind : Catalog.find id with
    | error e => simp [Finds, hfind, Report.inputError, Report.failure]
    | ok c => simp [Finds, hfind, eq_comm]
  | none =>
    cases file with
    | none => exact ⟨rfl, fun _ h => h⟩
    | some path =>
      dsimp only
      cases folder.readText path with
      | error fault => exact ⟨rfl, by simp⟩
      | ok text =>
        cases hload : Challenge.load text with
        | error e => simp [Finds, bind, Except.bind, hload, Report.inputError, Report.failure]
        | ok c => simp [Finds, bind, Except.bind, hload, eq_comm]

def settings : Option Nat → List Session.Setting
  | none => [.sink listener]
  | some limit => [.sink listener, .historyLimit limit]

theorem prepare_of_reads (hp : ReadsProgram folder attempt.program program) (hc : ReadsChallenge folder attempt c)
    (historyLimit : Option Nat) :
    prepare folder attempt historyLimit = .ok (Session.build c program (settings historyLimit)) := by
  unfold prepare
  rw [(finds_loadProgram _ _).eq_ok hp, (finds_loadChallenge _ _).eq_ok hc]
  cases historyLimit <;> rfl

theorem prepare_of_cannotRead (h : CannotRead folder attempt) :
    ∃ report, report.exit = .input ∧ ∀ historyLimit, prepare folder attempt historyLimit = .error report := by
  have hprogram := finds_loadProgram folder attempt.program
  have hchallenge := finds_loadChallenge folder attempt
  unfold prepare
  cases hp : loadProgram folder attempt.program with
  | error report =>
    rw [hp] at hprogram
    exact ⟨report, hprogram.1, fun _ => rfl⟩
  | ok program =>
    rw [hp] at hprogram
    cases hc : loadChallenge folder attempt with
    | error report =>
      rw [hc] at hchallenge
      exact ⟨report, hchallenge.1, fun _ => rfl⟩
    | ok c =>
      rw [hc] at hchallenge
      exact absurd h (not_cannotRead ((hprogram program).2 rfl) ((hchallenge c).2 rfl))

/-! ## What comes of an attempt -/

/-- The machine has halted and the attempt is over. -/
def IsOver (result : Option Halt × Machine) : Prop :=
  ∃ halt, result.1 = some halt ∧ halt.IsOver

/-- The machine has failed for another reason than running off the row, or has not halted. -/
def IsBroken (result : Option Halt × Machine) : Prop :=
  result.1 = none ∨ ∃ fault, result.1 = some (.failed fault) ∧ fault.kind ≠ .pointerOutOfRange

theorem not_isBroken {result : Option Halt × Machine} (h : IsOver result) : ¬ IsBroken result := by
  obtain ⟨halt, hhalt, hover⟩ := h
  rintro (hnone | ⟨fault, hfailed, hkind⟩)
  · rw [hhalt] at hnone; cases hnone
  · rw [hhalt] at hfailed
    cases hfailed
    exact hkind hover

/-- The completion that a solved attempt reports. -/
def completion (c : Challenge) (program : Program) (m : Machine) : Completion :=
  ⟨c.id, m.stepCount, program.instructionCount, .run⟩

/-- The reply, the snapshot and the completions that the run of an attempt leads to. The limit on the history has no
part in them. -/
theorem run_settings (c : Challenge) (program : Program) (historyLimit : Option Nat) (limit : Nat) :
    let run := (Session.build c program (settings historyLimit)).runImmediately limit
    let result := Machine.iterate limit (.start c.initialArray program none)
    run.1 = .ofEnding (result.1.map (Halt.ending c result.2.toSnapshot)) ∧
      run.2.machine.toSnapshot = result.2.toSnapshot ∧
      run.2.completions =
        match run.1 with
        | .ended (.finished verdict) =>
          if verdict.success then [⟨c.id, verdict.stepCount, program.instructionCount, .run⟩] else []
        | _ => [] := by
  intro run result
  have hpolicy : (Session.build c program (settings historyLimit)).policy = .boundary := by
    cases historyLimit <;> rfl
  have hsink : (Session.build c program (settings historyLimit)).sink.isSome = true := by
    cases historyLimit <;> rfl
  have hrun := Session.runImmediately_eq_iterate c program (settings historyLimit) hpolicy limit
  have hcompletions := Session.completions_runImmediately (Session.coherent_build c program (settings historyLimit))
    (Session.onCourse_build c program (settings historyLimit)).ending_eq hsink limit
  refine ⟨hrun.1, hrun.2, hcompletions.trans ?_⟩
  cases historyLimit <;> rfl

theorem attemptImmediately_of_prepare {s : Session} (h : prepare folder attempt historyLimit = .ok s) :
    attemptImmediately folder time attempt historyLimit progress limit lines =
      conclude folder progress time lines (s.runImmediately limit).1 (s.runImmediately limit).2 := by
  rw [attemptImmediately, h]

/-- All that an attempt can come to: it is solved and reported, it is over and not solved, or it is broken. -/
theorem attempt_cases (h : attemptImmediately folder time attempt historyLimit progress limit lines = (answer, folder'))
    (hp : ReadsProgram folder attempt.program program) (hc : ReadsChallenge folder attempt c) :
    let result := Machine.iterate limit (.start c.initialArray program none)
    (answer.exit = .success ∧ IsOver result ∧ result.2.array = c.targetArray ∧
      folder' = recordAll folder progress time [completion c program result.2]) ∨
    (answer.exit = .validation ∧ IsOver result ∧ result.2.array ≠ c.targetArray ∧ folder' = folder) ∨
    (answer.exit = .runtime ∧ IsBroken result ∧ folder' = folder) := by
  intro result
  obtain ⟨hreply, -, hcompletions⟩ := run_settings c program historyLimit limit
  rw [attemptImmediately_of_prepare (prepare_of_reads hp hc historyLimit)] at h
  -- From here on only the reply of the run and its completions matter.
  generalize (Session.build c program (settings historyLimit)).runImmediately limit = run at h hreply hcompletions
  obtain ⟨reply, s⟩ := run
  simp only [conclude] at h hreply hcompletions
  cases h
  change reply = .ofEnding (result.1.map (Halt.ending c result.2.toSnapshot)) at hreply
  have hsolved := c.success_judge_iff result.2.toSnapshot
  cases hhalt : result.1 with
  | none =>
    rw [hhalt] at hreply
    subst hreply
    exact Or.inr (Or.inr ⟨rfl, Or.inl hhalt, by rw [hcompletions]; rfl⟩)
  | some halt =>
    rw [hhalt] at hreply
    by_cases hover : halt.IsOver
    · rw [Option.map_some, Halt.ending_of_isOver hover] at hreply
      subst hreply
      simp only [RunReply.ofEnding] at hcompletions
      by_cases hsuccess : result.2.array = c.targetArray
      · rw [if_pos (hsolved.2 hsuccess)] at hcompletions
        refine Or.inl ⟨?_, ⟨halt, hhalt, hover⟩, hsuccess, by rw [hcompletions]; rfl⟩
        exact if_pos (hsolved.2 hsuccess)
      · rw [if_neg (mt hsolved.1 hsuccess)] at hcompletions
        refine Or.inr (Or.inl ⟨?_, ⟨halt, hhalt, hover⟩, hsuccess, by rw [hcompletions]; rfl⟩)
        exact if_neg (mt hsolved.1 hsuccess)
    · obtain ⟨fault, rfl, hkind, hending⟩ := Halt.ending_of_not_isOver hover c result.2.toSnapshot
      rw [Option.map_some, hending] at hreply
      subst hreply
      exact Or.inr (Or.inr ⟨rfl, Or.inr ⟨fault, hhalt, hkind⟩, by rw [hcompletions]; rfl⟩)

theorem attempt_of_cannotRead
    (h : attemptImmediately folder time attempt historyLimit progress limit lines = (answer, folder'))
    (hnot : CannotRead folder attempt) : answer.exit = .input ∧ folder' = folder := by
  obtain ⟨report, hinput, hprepare⟩ := prepare_of_cannotRead hnot
  rw [attemptImmediately, hprepare] at h
  cases h
  exact ⟨hinput, rfl⟩

/-- The report looks at the snapshot only, if the lines do. -/
theorem report_congr (hlines : ∀ verdict (s s' : Session),
    s.machine.toSnapshot = s'.machine.toSnapshot → lines verdict s = lines verdict s')
    {s s' : Session} (h : s.machine.toSnapshot = s'.machine.toSnapshot) (reply : RunReply) :
    report lines reply s = report lines reply s' := by
  cases reply with
  | paused => simp only [report, h]
  | ended ending =>
    cases ending with
    | finished verdict => simp only [report, hlines verdict s s' h]
    | faulted fault => rfl

theorem attemptImmediately_historyLimit (hlines : ∀ verdict (s s' : Session),
    s.machine.toSnapshot = s'.machine.toSnapshot → lines verdict s = lines verdict s')
    (folder : Folder) (time : UInt64) (attempt : Attempt) (historyLimit : Option Nat) (progress : Option String)
    (limit : Nat) :
    attemptImmediately folder time attempt historyLimit progress limit lines =
      attemptImmediately folder time attempt none progress limit lines := by
  obtain ⟨program, c, hp, hc⟩ | hnot := reads_cases folder attempt
  · obtain ⟨hreply, hsnap, hcompletions⟩ := run_settings c program historyLimit limit
    obtain ⟨hreply', hsnap', hcompletions'⟩ := run_settings c program none limit
    rw [attemptImmediately_of_prepare (prepare_of_reads hp hc historyLimit),
      attemptImmediately_of_prepare (prepare_of_reads hp hc none)]
    simp only [conclude, hcompletions, hcompletions', hreply, hreply',
      report_congr hlines (hsnap.trans hsnap'.symm)]
  · obtain ⟨report, -, hprepare⟩ := prepare_of_cannotRead hnot
    simp only [attemptImmediately, hprepare]

/-! ## What becomes of the folder -/

/-- A completion was merged into the ledger file, if there is one. Only the file at the place that the path names has
changed, and it holds the ledger from before with the completion recorded. Nothing has changed if there is no ledger
file, no id to record, nothing but a broken file, or no place that the path names. -/
structure Merges (folder folder' : Folder) (progress : Option String) (id : String) (steps time : UInt64) : Prop where
  unnamed : progress = none ∨ id = "" → folder' = folder
  broken : ∀ path e, progress = some path → Ledger.load folder path = .error e → folder' = folder
  astray : ∀ path, progress = some path → (∀ place, ¬ folder.Names path place) → folder' = folder
  merged : ∀ path place ledger, progress = some path → id ≠ "" → folder.Names path place →
    Ledger.load folder path = .ok ledger →
      (∀ other, other ≠ place → folder'.node? other = folder.node? other) ∧
      ∃ ledger', Ledger.load folder' path = .ok ledger' ∧
        ledger'.get? id = some (((ledger.get? id).getD (.blank id)).complete steps time) ∧
        ∀ other, other ≠ id → ledger'.get? other = ledger.get? other

theorem merges_recordAll (folder : Folder) (progress : Option String) (time : UInt64) (completion : Completion) :
    Merges folder (recordAll folder progress time [completion]) progress completion.challengeId completion.stepCount
      time := by
  rw [recordAll, List.foldl_cons, List.foldl_nil]
  refine ⟨?_, ?_, ?_, ?_⟩
  · rintro (rfl | hid)
    · simp [Ledger.recordCompletion]
    · rw [Ledger.recordCompletion_of_anonymous progress hid]
  · rintro path e rfl hload
    by_cases hid : completion.challengeId = ""
    · rw [Ledger.recordCompletion_of_anonymous _ hid]
    · rw [Ledger.recordCompletion_of_not_kept hload hid]
  · rintro path rfl hnowhere
    cases hrec : Ledger.recordCompletion folder (some path) completion time with
    | error e => rfl
    | ok folder' => exact Ledger.eq_of_recordCompletion hnowhere hrec
  · rintro path place ledger rfl hid hnames hload
    rw [Ledger.recordCompletion_of_kept hnames (Ledger.kept?_of_load hnames hload) hid]
    refine ⟨fun other hne => Folder.node?_put_of_ne hne folder _, _, ?_, Ledger.get?_record _ _ _ _,
      fun other hne => Ledger.get?_record_of_ne hne _ _ _⟩
    exact Ledger.load_of_kept (hnames.put _) (Ledger.kept?_put hnames _)

/-! ## Exit codes -/

section

variable (h : attemptImmediately folder time attempt historyLimit progress limit lines = (answer, folder'))

include h

theorem code_eq_one_iff : answer.exit.code = 1 ↔ CannotRead folder attempt := by
  obtain ⟨program, c, hp, hc⟩ | hnot := reads_cases folder attempt
  · have hreads := not_cannotRead hp hc
    obtain ⟨he, -⟩ | ⟨he, -⟩ | ⟨he, -⟩ := attempt_cases h hp hc
    all_goals simp [he, Exit.code, hreads]
  · simp [(attempt_of_cannotRead h hnot).1, Exit.code, hnot]

/-- The exit code tells the three cases of an attempt apart. -/
theorem code_iff (hp : ReadsProgram folder attempt.program program) (hc : ReadsChallenge folder attempt c) :
    let result := Machine.iterate limit (.start c.initialArray program none)
    (answer.exit.code = 0 ↔ IsOver result ∧ result.2.array = c.targetArray) ∧
    (answer.exit.code = 2 ↔ IsOver result ∧ result.2.array ≠ c.targetArray) ∧
    (answer.exit.code = 3 ↔ IsBroken result) := by
  obtain ⟨he, hover, harray, -⟩ | ⟨he, hover, harray, -⟩ | ⟨he, hbroken, -⟩ := attempt_cases h hp hc
  · simp [he, Exit.code, hover, harray, not_isBroken hover]
  · simp [he, Exit.code, hover, harray, not_isBroken hover]
  · have hnot : ¬ IsOver (Machine.iterate limit (.start c.initialArray program none)) := fun hover =>
      not_isBroken hover hbroken
    simp [he, Exit.code, hbroken, hnot]

/-- Nothing changes unless the challenge is solved. -/
theorem folder_of_code_ne_zero (hcode : answer.exit.code ≠ 0) : folder' = folder := by
  obtain ⟨program, c, hp, hc⟩ | hnot := reads_cases folder attempt
  · obtain ⟨he, -⟩ | ⟨-, -, -, hfolder⟩ | ⟨-, -, hfolder⟩ := attempt_cases h hp hc
    · exact absurd (congrArg Exit.code he) hcode
    · exact hfolder
    · exact hfolder
  · exact (attempt_of_cannotRead h hnot).2

theorem merges_of_code_eq_zero (hp : ReadsProgram folder attempt.program program)
    (hc : ReadsChallenge folder attempt c) (hcode : answer.exit.code = 0) :
    Merges folder folder' progress c.id (Machine.iterate limit (.start c.initialArray program none)).2.stepCount
      time := by
  obtain ⟨-, -, -, rfl⟩ | ⟨he, -⟩ | ⟨he, -⟩ := attempt_cases h hp hc
  · exact merges_recordAll folder progress time _
  · simp [he, Exit.code] at hcode
  · simp [he, Exit.code] at hcode

end

/-- The commands that make an attempt without a timer: a run without an interval, and a validation. -/
inductive Immediate (attempt : Attempt) (progress : Option String) (limit : Nat) : Command → Prop
  | run (historyLimit : Option Nat) : Immediate attempt progress limit (.run attempt 0 historyLimit progress limit)
  | validate : Immediate attempt progress limit (.validate attempt progress limit)

theorem execute_of_immediate {command : Command} (h : Immediate attempt progress limit command) (folder : Folder)
    (time : UInt64) (alarms : Nat) : ∃ historyLimit lines, execute folder time alarms command =
      some (attemptImmediately folder time attempt historyLimit progress limit lines) := by
  cases h with
  | run historyLimit => exact ⟨historyLimit, runLines, rfl⟩
  | validate => exact ⟨none, validateLines, rfl⟩

/-- **The exit code says what came of an attempt.** Make an attempt without a timer, by a run or a validation, in any
folder, with any limits and any ledger file. The command answers, and it exits with 1 just if the program or the
challenge cannot be read or loaded. Otherwise step the machine by itself from the initial row until it halts, within
the limit: when the last instruction of the program is done, or when a step fails; only the empty program takes a
step to be left. The command exits with 0 if the program completes or runs off the row and the row is the target,
with 2 if it does so and the row is another, and with 3 if it fails otherwise or does not halt; and each of these
codes means just that. Nothing in the folder changes but on exit 0, and then the id of the challenge and the number
of steps are merged into the ledger file; a broken ledger file stays as it is, and no ledger file has a part in the
exit code. The limit on the history changes neither the answer nor the folder. -/
theorem exit_code_of_attempt {command : Command} (h : Immediate attempt progress limit command) (folder : Folder)
    (time : UInt64) (alarms : Nat) :
    ∃ report folder', execute folder time alarms command = some (report, folder') ∧
      (report.exit.code = 1 ↔ CannotRead folder attempt) ∧
      (∀ program c, ReadsProgram folder attempt.program program → ReadsChallenge folder attempt c →
        let result := Machine.iterate limit (.start c.initialArray program none)
        (report.exit.code = 0 ↔ IsOver result ∧ result.2.array = c.targetArray) ∧
        (report.exit.code = 2 ↔ IsOver result ∧ result.2.array ≠ c.targetArray) ∧
        (report.exit.code = 3 ↔ IsBroken result) ∧
        (result.1 = some .left ↔ program.block = [] ∧ limit ≠ 0) ∧
        (report.exit.code = 0 → Merges folder folder' progress c.id result.2.stepCount time)) ∧
      (report.exit.code ≠ 0 → folder' = folder) ∧
      ∀ historyLimit, execute folder time alarms (.run attempt 0 historyLimit progress limit) =
        execute folder time alarms (.run attempt 0 none progress limit) := by
  have hhistory : ∀ historyLimit, execute folder time alarms (.run attempt 0 historyLimit progress limit) =
      execute folder time alarms (.run attempt 0 none progress limit) := fun historyLimit =>
    congrArg some (attemptImmediately_historyLimit (fun _ _ _ hs => by simp only [runLines, hs]) ..)
  obtain ⟨historyLimit, lines, hexecute⟩ := execute_of_immediate h folder time alarms
  cases hanswer : attemptImmediately folder time attempt historyLimit progress limit lines with
  | mk answer folder' =>
    rw [hanswer] at hexecute
    refine ⟨answer, folder', hexecute, code_eq_one_iff hanswer, ?_, folder_of_code_ne_zero hanswer, hhistory⟩
    intro program c hp hc result
    obtain ⟨hzero, htwo, hthree⟩ := code_iff hanswer hp hc
    exact ⟨hzero, htwo, hthree, iterate_eq_left_iff c.initialArray program limit,
      merges_of_code_eq_zero hanswer hp hc⟩

/-- Two instructions that exchange the ends of a row, on a built-in challenge: solved within two steps and merged into
a new ledger file, not finished within one, solved beside a broken ledger file, and not there to be read. -/
theorem exit_code_of_attempt_swap :
    let attempt : Attempt := ⟨"swap.json", some "challenge-4", none⟩
    let program : Program := ⟨[.op (.moveToEnd .choco), .op .swap]⟩
    let folder := Folder.empty.put ["swap.json"] (.file program.write.toUTF8)
    let broken := folder.put ["ledger.json"] (.file "[".toUTF8)
    let ledger : Option String := some "ledger.json"
    (∃ report folder', execute folder 7 0 (.validate attempt ledger 2) = some (report, folder') ∧
      report.exit.code = 0 ∧ ∃ ledger', Ledger.load folder' "ledger.json" = .ok ledger' ∧
        ledger'.get? "challenge-4" = some ⟨"challenge-4", true, some 2, some 7⟩) ∧
    (∃ report, execute folder 7 0 (.run attempt 0 (some 0) ledger 1) = some (report, folder) ∧
      report.exit.code = 3) ∧
    (∃ report, execute broken 7 0 (.run attempt 0 none ledger 2) = some (report, broken) ∧
      report.exit.code = 0) ∧
    ∃ report, execute .empty 7 0 (.validate attempt ledger 2) = some (report, .empty) ∧
      report.exit.code = 1 := by
  intro attempt program folder broken ledger
  have hswap : Folder.IsPlainName "swap.json" :=
    ⟨by decide, by decide, by decide, by decide, by decide, by decide⟩
  have hledger : Folder.IsPlainName "ledger.json" :=
    ⟨by decide, by decide, by decide, by decide, by decide, by decide⟩
  let c : Challenge := Catalog.challenges[3]
  -- The program can be read wherever its file stands, and the challenge always.
  have hload : Program.load program.write = .ok program := by decide +kernel
  have hp : ∀ f : Folder, f.node? ["swap.json"] = some (.file program.write.toUTF8) →
      ReadsProgram f attempt.program program := fun f hnode =>
    ⟨program.write, Folder.readText_of_names (hswap.names (Or.inr ⟨_, hnode⟩)) hnode, hload⟩
  have hc : ∀ f : Folder, ReadsChallenge f attempt c := fun _ => rfl
  have hfree : Folder.empty.IsFree ["swap.json"] := Or.inl rfl
  have hfile : folder.node? ["swap.json"] = some (.file program.write.toUTF8) := hfree.node?_put _
  have hfile' : broken.node? ["swap.json"] = some (.file program.write.toUTF8) :=
    (Folder.node?_put_of_ne (by decide) folder _).trans hfile
  have hmissing : Folder.empty.readText "swap.json" = .error .notFound := by
    rw [Folder.readText, Folder.read_of_names (hswap.names hfree)]
    rfl
  -- There is room for a ledger in the first folder, and a broken one in the second.
  have hroom : folder.node? ["ledger.json"] = none := Folder.node?_put_of_ne (by decide) .empty _
  have hnames : folder.Names "ledger.json" ["ledger.json"] := hledger.names (Or.inl hroom)
  have hempty : Ledger.load folder "ledger.json" = .ok .empty :=
    Ledger.load_of_kept hnames (by simp only [Ledger.kept?, Folder.content?, hroom])
  have hbracket : Ledger.kept? broken ["ledger.json"] = none := by
    have hread : Ledger.read? "[" = none := by decide
    simp only [Ledger.kept?, broken, hnames.content?_put, fromUTF8?_toUTF8, Option.bind_some, hread]
  obtain ⟨e, hbad⟩ := Ledger.load_of_not_kept (hnames.put _) hbracket
  -- The machine is done with its second step.
  have hover : IsOver (Machine.iterate 2 (.start c.initialArray program none)) := ⟨.done, by decide, trivial⟩
  have harray : (Machine.iterate 2 (.start c.initialArray program none)).2.array = c.targetArray := by decide
  have hsteps : (Machine.iterate 2 (.start c.initialArray program none)).2.stepCount = 2 := by decide
  have hunfinished : IsBroken (Machine.iterate 1 (.start c.initialArray program none)) := Or.inl (by decide)
  refine ⟨?_, ?_, ?_, ?_⟩
  · have himmediate : Immediate attempt ledger 2 (.validate attempt ledger 2) := .validate
    obtain ⟨report, folder', hexecute, -, hcodes, -, -⟩ := exit_code_of_attempt himmediate folder 7 0
    obtain ⟨hzero, -, -, -, hmerges⟩ := hcodes program c (hp folder hfile) (hc folder)
    have hcode := hzero.2 ⟨hover, harray⟩
    obtain ⟨-, ledger', hledger', hentry, -⟩ :=
      (hmerges hcode).merged "ledger.json" ["ledger.json"] .empty rfl (by decide) hnames hempty
    rw [hsteps] at hentry
    exact ⟨report, folder', hexecute, hcode, ledger', hledger', hentry⟩
  · have himmediate : Immediate attempt ledger 1 (.run attempt 0 (some 0) ledger 1) := .run (some 0)
    obtain ⟨report, folder', hexecute, -, hcodes, hsame, -⟩ := exit_code_of_attempt himmediate folder 7 0
    obtain ⟨-, -, hthree, -, -⟩ := hcodes program c (hp folder hfile) (hc folder)
    have hcode := hthree.2 hunfinished
    rw [hsame (by rw [hcode]; decide)] at hexecute
    exact ⟨report, hexecute, hcode⟩
  · have himmediate : Immediate attempt ledger 2 (.run attempt 0 none ledger 2) := .run none
    obtain ⟨report, folder', hexecute, -, hcodes, -, -⟩ := exit_code_of_attempt himmediate broken 7 0
    obtain ⟨hzero, -, -, -, hmerges⟩ := hcodes program c (hp broken hfile') (hc broken)
    have hcode := hzero.2 ⟨hover, harray⟩
    rw [(hmerges hcode).broken "ledger.json" e rfl hbad] at hexecute
    exact ⟨report, hexecute, hcode⟩
  · have himmediate : Immediate attempt ledger 2 (.validate attempt ledger 2) := .validate
    obtain ⟨report, folder', hexecute, hone, -, hsame, -⟩ := exit_code_of_attempt himmediate .empty 7 0
    have hnone : ∀ program, ¬ ReadsProgram .empty attempt.program program := by
      rintro _ ⟨text, hread, -⟩
      rw [hmissing] at hread
      cases hread
    have hcode := hone.2 (Or.inl hnone)
    rw [hsame (by rw [hcode]; decide)] at hexecute
    exact ⟨report, hexecute, hcode⟩

end SeatMachine.Command
