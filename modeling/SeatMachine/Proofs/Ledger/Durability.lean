import SeatMachine.Ledger.Storage
import SeatMachine.Proofs.Folder.Naming
import SeatMachine.Proofs.Ledger.RoundTrip
/-!
# Progress is kept

Each completion is recorded by reading the ledger file, recording the completion and writing the file again.
Whether this works depends on what is kept at the place of the file: `kept?` is the ledger that loading finds
there (`load_of_kept`), and none if the file is not a ledger, in which case it is left alone
(`recordCompletion_of_not_kept`). After a completion was recorded, the place keeps the ledger with the
completion (`kept?_put`), so nothing is lost between two of them: `recordEach_of_kept`.

The main theorem is `completions_kept`.
-/
namespace SeatMachine.Ledger

variable {folder folder' : Folder} {path : String} {place : Folder.Place} {ledger : Ledger}
  {completion : Completion} {time : UInt64}

/-! ## What is kept -/

/-- The ledger that is kept at a place: the empty one if there is no file, and none if the file is not the text
of a ledger. -/
def kept? (folder : Folder) (place : Folder.Place) : Option Ledger :=
  match folder.content? place with
  | none => some .empty
  | some content => (String.fromUTF8? content).bind read?

theorem load_of_kept (h : folder.Names path place) (hkept : kept? folder place = some ledger) :
    load folder path = .ok ledger := by
  have hread := Folder.read_of_names h
  unfold kept? at hkept
  cases hc : folder.content? place with
  | none =>
    rw [hc] at hread hkept
    cases hkept
    simp [load, Folder.readText, hread]
  | some content =>
    rw [hc] at hread hkept
    obtain ⟨text, htext, hledger⟩ := Option.bind_eq_some_iff.1 hkept
    simp [load, Folder.readText, hread, htext, hledger]

theorem load_of_not_kept (h : folder.Names path place) (hkept : kept? folder place = none) :
    ∃ e, load folder path = .error e := by
  have hread := Folder.read_of_names h
  unfold kept? at hkept
  cases hc : folder.content? place with
  | none => rw [hc] at hkept; cases hkept
  | some content =>
    rw [hc] at hread hkept
    cases htext : String.fromUTF8? content with
    | none => exact ⟨.read path .notText, by simp [load, Folder.readText, hread, htext]⟩
    | some text =>
      have hnone : read? text = none := by simpa [htext] using hkept
      exact ⟨.json path, by simp [load, Folder.readText, hread, htext, hnone]⟩

theorem kept?_of_load (h : folder.Names path place) (hload : load folder path = .ok ledger) :
    kept? folder place = some ledger := by
  cases hk : kept? folder place with
  | none =>
    obtain ⟨e, he⟩ := load_of_not_kept h hk
    rw [he] at hload
    cases hload
  | some other =>
    rw [load_of_kept h hk] at hload
    cases hload
    rfl

theorem kept?_put_text (h : folder.Names path place) (text : String) :
    kept? (folder.put place (.file text.toUTF8)) place = read? text := by
  simp only [kept?, h.content?_put, fromUTF8?_toUTF8, Option.bind_some]

theorem kept?_put (h : folder.Names path place) (ledger : Ledger) :
    kept? (folder.put place (.file ledger.write.toUTF8)) place = some ledger := by
  rw [kept?_put_text h, read?_write]

/-! ## One completion -/

def keep (folder : Folder) (place : Folder.Place) (ledger : Ledger) (completion : Completion) (time : UInt64) :
    Folder :=
  folder.put place
    (.file (ledger.record completion.challengeId completion.stepCount time).write.toUTF8)

theorem recordCompletion_of_anonymous (path : Option String) (h : completion.challengeId = "") :
    recordCompletion folder path completion time = .ok folder := by
  simp [recordCompletion, h]

theorem recordCompletion_of_kept (h : folder.Names path place) (hkept : kept? folder place = some ledger)
    (hid : completion.challengeId ≠ "") :
    recordCompletion folder (some path) completion time = .ok (keep folder place ledger completion time) := by
  simp [recordCompletion, hid, load_of_kept h hkept, save, Folder.writeText_of_names h, keep]

theorem recordCompletion_of_not_kept {e : LedgerError} (hload : load folder path = .error e)
    (hid : completion.challengeId ≠ "") :
    recordCompletion folder (some path) completion time = .error e := by
  simp [recordCompletion, hid, hload]

/-- Recording leaves no trace if the path names no place. -/
theorem eq_of_recordCompletion (hnowhere : ∀ place, ¬ folder.Names path place)
    (h : recordCompletion folder (some path) completion time = .ok folder') : folder' = folder := by
  unfold recordCompletion save at h
  split at h
  · cases h; rfl
  · dsimp only at h
    split at h
    · cases h
    · split at h
      · rename_i hwrite
        cases h
        obtain heq | ⟨place, hnames, -⟩ := Folder.names_of_writeText hwrite
        · exact heq
        · exact absurd hnames (hnowhere place)
      · cases h

/-! ## Any number of completions -/

/-- Records completions one after the other, each at its time. If one cannot be recorded, the folder stays as it
is and the next one is tried. -/
def recordEach (path : String) : List (Completion × UInt64) → Folder → List (Except LedgerError Unit) × Folder
  | [], folder => ([], folder)
  | (completion, time) :: events, folder =>
    match recordCompletion folder (some path) completion time with
    | .ok folder' => (.ok () :: (recordEach path events folder').1, (recordEach path events folder').2)
    | .error e => (.error e :: (recordEach path events folder).1, (recordEach path events folder).2)

/-- The ledger with completions recorded one after the other, but for those of challenges without an id. -/
def recordNamed (ledger : Ledger) (events : List (Completion × UInt64)) : Ledger :=
  (events.filter fun event => event.1.challengeId ≠ "").foldl
    (fun ledger event => ledger.record event.1.challengeId event.1.stepCount event.2) ledger

/-- If a ledger is kept, each completion is recorded, and all of them are in the ledger that is kept then. All
other places stay as they are. -/
theorem recordEach_of_kept : ∀ (events : List (Completion × UInt64)) {folder : Folder} {ledger : Ledger},
    folder.Names path place → kept? folder place = some ledger →
      (recordEach path events folder).1 = events.map (fun _ => .ok ()) ∧
      (recordEach path events folder).2.Names path place ∧
      kept? (recordEach path events folder).2 place = some (ledger.recordNamed events) ∧
      ∀ other, other ≠ place → (recordEach path events folder).2.node? other = folder.node? other
  | [], _, _, h, hkept => ⟨rfl, h, hkept, fun _ _ => rfl⟩
  | (completion, time) :: events, folder, ledger, h, hkept => by
    by_cases hid : completion.challengeId = ""
    · obtain ⟨hanswers, hnames, hlast, hother⟩ := recordEach_of_kept events h hkept
      simp only [recordEach, recordCompletion_of_anonymous (some path) hid, List.map_cons, hanswers]
      refine ⟨trivial, hnames, ?_, hother⟩
      rw [hlast]
      simp [recordNamed, hid]
    · have h' : (keep folder place ledger completion time).Names path place := h.put _
      obtain ⟨hanswers, hnames, hlast, hother⟩ := recordEach_of_kept events h' (kept?_put h _)
      simp only [recordEach, recordCompletion_of_kept h hkept hid, List.map_cons, hanswers]
      refine ⟨trivial, hnames, ?_, fun other hne => ?_⟩
      · rw [hlast]
        simp [recordNamed, hid]
      · rw [hother other hne]
        exact Folder.node?_put_of_ne hne folder _

/-- If the file cannot be loaded, it is left alone, and each completion with an id is answered by that error. -/
theorem recordEach_of_not_kept {e : LedgerError} (hload : load folder path = .error e) :
    ∀ events : List (Completion × UInt64), recordEach path events folder =
      (events.map fun event => if event.1.challengeId = "" then .ok () else .error e, folder)
  | [] => rfl
  | (completion, time) :: events => by
    have ih := recordEach_of_not_kept hload events
    by_cases hid : completion.challengeId = ""
    · simp [recordEach, recordCompletion_of_anonymous (some path) hid, ih, hid]
    · simp [recordEach, recordCompletion_of_not_kept hload hid, ih, hid]

theorem recordEach_of_anonymous : ∀ {events : List (Completion × UInt64)},
    (∀ event ∈ events, event.1.challengeId = "") → (recordEach path events folder).2 = folder
  | [], _ => rfl
  | (completion, time) :: events, h => by
    have hid : completion.challengeId = "" := h (completion, time) List.mem_cons_self
    simp only [recordEach, recordCompletion_of_anonymous (some path) hid]
    exact recordEach_of_anonymous fun event hevent => h event (List.mem_cons_of_mem _ hevent)

/-- **Progress is kept.** Let a path name a place for a file, with a file there or not, and record any
completions at any times. If there is no file or it is a ledger, all of them are recorded: loading the file
then gives the ledger before, or the empty one, with the completions of all challenges that have an id
recorded in order, and no other place has changed. If no challenge has an id, nothing changes at all. If the
file is not a ledger, or not even text, nothing changes either, and each completion of a challenge with an id
is answered by an error. -/
theorem completions_kept (folder : Folder) (path : String) (place : Folder.Place)
    (h : folder.Names path place) (events : List (Completion × UInt64)) :
    let result := recordEach path events folder
    (∀ ledger, kept? folder place = some ledger →
      result.1 = events.map (fun _ => .ok ()) ∧
      load result.2 path = .ok (ledger.recordNamed events) ∧
      ∀ other, other ≠ place → result.2.node? other = folder.node? other) ∧
    ((∀ event ∈ events, event.1.challengeId = "") → result.2 = folder) ∧
    (kept? folder place = none → ∃ e, result =
      (events.map fun event => if event.1.challengeId = "" then .ok () else .error e, folder)) := by
  intro result
  refine ⟨fun ledger hkept => ?_, fun hall => recordEach_of_anonymous hall, fun hkept => ?_⟩
  · obtain ⟨hanswers, hnames, hlast, hother⟩ := recordEach_of_kept events h hkept
    exact ⟨hanswers, load_of_kept hnames hlast, hother⟩
  · obtain ⟨e, hload⟩ := load_of_not_kept h hkept
    exact ⟨e, recordEach_of_not_kept hload events⟩

/-- Three completions, one of a challenge without an id: recorded in a new file, recorded in a ledger that knows
one of the challenges already, and refused by a file that is not a ledger. -/
theorem completions_kept_three_files :
    let path := "progress.json"
    let place : Folder.Place := [path]
    let old := empty.record "copy" 9 5
    let ledgerFile := Folder.empty.put place (.file old.write.toUTF8)
    let brokenFile := Folder.empty.put place (.file "[".toUTF8)
    let events : List (Completion × UInt64) :=
      [(⟨"swap", 4, 1, .run⟩, 7), (⟨"", 1, 1, .step⟩, 8), (⟨"copy", 6, 2, .mixed⟩, 9)]
    Folder.empty.Names path place ∧
    load (recordEach path events .empty).2 path = .ok (empty.recordNamed events) ∧
    (load (recordEach path events ledgerFile).2 path = .ok (old.recordNamed events) ∧
      (old.recordNamed events).get? "copy" = some ⟨"copy", true, some 6, some 5⟩) ∧
    ∃ e, recordEach path events brokenFile = ([.error e, .ok (), .error e], brokenFile) := by
  intro path place old ledgerFile brokenFile events
  have hname : Folder.IsPlainName path :=
    ⟨by decide, by decide, by decide, by decide, by decide, by decide⟩
  have hnames : Folder.empty.Names path place := hname.names (Or.inl rfl)
  have hbroken : kept? brokenFile place = none := by
    have hread : read? "[" = none := by decide
    simp only [kept?, brokenFile, hnames.content?_put, fromUTF8?_toUTF8, Option.bind_some, hread]
  obtain ⟨hnew, -, -⟩ := completions_kept .empty path place hnames events
  obtain ⟨hold, -, -⟩ := completions_kept ledgerFile path place (hnames.put _) events
  obtain ⟨-, -, hrefused⟩ := completions_kept brokenFile path place (hnames.put _) events
  exact ⟨hnames, (hnew empty rfl).2.1, ⟨(hold old (kept?_put hnames old)).2.1, by decide⟩, hrefused hbroken⟩

end SeatMachine.Ledger
