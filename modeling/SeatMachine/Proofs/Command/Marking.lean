import SeatMachine.Command.Execution
import SeatMachine.Proofs.Ledger.Merging
import SeatMachine.Proofs.Ledger.Writing
/-!
# What the listing marks

A line of the listing is made of columns, which depend on the challenge only, and of a mark. The columns of the
built-in challenges hold neither of the words of the marks (`columns_of_catalog`), so a line shows one of these words
just if its mark does: `shows_done_iff` and `shows_locked_iff`.

The mark is chosen by the best step count first, and only without one by whether the challenge is completed. An entry
can have a step count without being completed; such a challenge is marked as done all the same
(`uncompleted_shown_done`). In a ledger without such entries (`Ledger.IsConsistent`), and recording makes no others, the
marks are those of the completed challenges: `list_marks_noted`.
-/
namespace SeatMachine

/-! ## Ledgers without odd entries -/

namespace Ledger

/-- Every entry with a step count is completed. -/
def IsConsistent (l : Ledger) : Prop :=
  ∀ id e, l.get? id = some e → e.bestStepCount ≠ none → e.completed = true

theorem isConsistent_empty : empty.IsConsistent := by
  intro id e h
  cases h

/-- Recording completes whatever it gives a step count. -/
theorem IsConsistent.recordAll {l : Ledger} (h : l.IsConsistent) (recordings : List Recording) :
    (l.recordAll recordings).IsConsistent := by
  intro id e he hbest
  by_cases hrecorded : ∃ r ∈ recordings, r.id = id
  · rw [get?_recordAll hrecorded, Entry.completeAll_eq] at he
    cases he
    simp [recordingsOf_ne_nil hrecorded]
  · rw [get?_recordAll_of_absent (by simpa using hrecorded)] at he
    exact h id e he hbest

/-- The challenge was completed, or a step count is known for it. -/
def IsNoted (l : Ledger) (id : String) : Prop :=
  l.isCompleted id = true ∨ (l.get? id).bind Entry.bestStepCount ≠ none

theorem IsConsistent.isNoted_iff {l : Ledger} (h : l.IsConsistent) {id : String} :
    l.IsNoted id ↔ l.isCompleted id = true := by
  refine ⟨fun hnoted => hnoted.elim (fun hcompleted => hcompleted) fun hbest => ?_, .inl⟩
  cases he : l.get? id with
  | none => simp [he] at hbest
  | some e => simp [isCompleted, he, h id e he (by simpa [he] using hbest)]

end Ledger

namespace Listing

variable {ledger : Ledger} {c : Challenge}

/-! ## Marks -/

def Mark.isDone : Mark → Bool
  | .doneIn _ | .done => true
  | .locked | .blank => false

theorem isDone_mark_iff : (mark ledger c).isDone = true ↔ ledger.IsNoted c.id := by
  unfold mark Ledger.IsNoted
  cases (ledger.get? c.id).bind Ledger.Entry.bestStepCount with
  | some steps => simp [Mark.isDone]
  | none =>
    cases ledger.isCompleted c.id with
    | true => simp [Mark.isDone]
    | false => cases c.unlocked <;> simp [Mark.isDone]

theorem mark_eq_locked_iff : mark ledger c = .locked ↔ c.unlocked = false ∧ ¬ ledger.IsNoted c.id := by
  unfold mark Ledger.IsNoted
  cases (ledger.get? c.id).bind Ledger.Entry.bestStepCount with
  | some steps => simp
  | none =>
    cases ledger.isCompleted c.id with
    | true => simp
    | false => cases c.unlocked <;> simp

/-! ## Words in a line -/

/-- The word stands somewhere in the line. -/
def Shows (line word : String) : Prop :=
  word.toList <:+: line.toList

def columns (c : Challenge) : String :=
  let budget := match c.maxSteps with
    | some budget => toString budget.toNat
    | none => "-"
  padRight 13 c.id ++ " " ++ padRight 6 c.difficulty.label ++ " " ++ padLeft 5 budget ++ "  " ++ c.title

theorem line_eq (ledger : Ledger) (c : Challenge) : line ledger c = columns c ++ (mark ledger c).text := rfl

theorem toList_padRight (width : Nat) (text : String) :
    (padRight width text).toList = text.toList ++ List.replicate (width - text.length) ' ' := by
  simp [padRight]

theorem toList_padLeft (width : Nat) (text : String) :
    (padLeft width text).toList = List.replicate (width - text.length) ' ' ++ text.toList := by
  simp [padLeft]

/-- The columns of the built-in challenges hold no word of a mark. Without the letter `k` nothing in them can be a
part of the word `locked`. -/
theorem columns_of_catalog : ∀ c ∈ Catalog.challenges, 'k' ∉ (columns c).toList ∧
    ∀ mark ∈ [Mark.locked, Mark.blank], ¬ Shows (columns c ++ mark.text) "done" := by
  simp only [Shows, columns, String.toList_append, toList_padRight, toList_padLeft]
  decide +kernel

theorem shows_append_right {word line mark : String} (h : Shows mark word) : Shows (line ++ mark) word := by
  rw [Shows, String.toList_append]
  exact List.IsInfix.trans h (List.infix_append_right)

theorem shows_text_of_isDone {mark : Mark} (h : mark.isDone = true) : Shows mark.text "done" := by
  cases mark with
  | doneIn steps => exact ⟨"  ".toList, s!" ({steps.toNat} steps)".toList, by simp [Mark.text, ToString.toString]⟩
  | done => exact ⟨"  ".toList, [], rfl⟩
  | locked => cases h
  | blank => cases h

/-- Only the mark of a locked challenge holds the letter `k`. -/
theorem eq_locked_of_mem_text {mark : Mark} (h : 'k' ∈ mark.text.toList) : mark = .locked := by
  cases mark with
  | doneIn steps =>
    have hdigit : 'k' ∉ Nat.toDigits 10 steps.toNat := fun hk =>
      absurd (Nat.isDigit_of_mem_toDigits (by decide) (by decide) hk) (by decide)
    simp [Mark.text, ToString.toString, hdigit] at h
  | done => simp [Mark.text] at h
  | locked => rfl
  | blank => simp [Mark.text] at h

/-- The line of a built-in challenge shows that it is done just if a step count or a completion is known. -/
theorem shows_done_iff (hc : c ∈ Catalog.challenges) : Shows (line ledger c) "done" ↔ ledger.IsNoted c.id := by
  rw [line_eq, ← isDone_mark_iff]
  refine ⟨fun h => ?_, fun h => shows_append_right (shows_text_of_isDone h)⟩
  have hcolumns := (columns_of_catalog c hc).2
  cases hmark : mark ledger c with
  | doneIn steps => rfl
  | done => rfl
  | locked => exact absurd (hmark ▸ h) (hcolumns .locked (by decide))
  | blank => exact absurd (hmark ▸ h) (hcolumns .blank (by decide))

/-- The line of a built-in challenge shows that it is locked just if it is locked and nothing else is known. -/
theorem shows_locked_iff (hc : c ∈ Catalog.challenges) :
    Shows (line ledger c) "locked" ↔ c.unlocked = false ∧ ¬ ledger.IsNoted c.id := by
  rw [line_eq, ← mark_eq_locked_iff]
  constructor
  · intro h
    have hk : 'k' ∈ (columns c ++ (mark ledger c).text).toList := h.subset (by decide)
    rw [String.toList_append, List.mem_append] at hk
    exact eq_locked_of_mem_text (hk.resolve_left (columns_of_catalog c hc).1)
  · intro h
    rw [h]
    exact shows_append_right ⟨"  ".toList, [], rfl⟩

end Listing

/-! ## The listing -/

namespace Command

variable {folder : Folder} {path : String} {ledger : Ledger}

theorem execute_challenges (hload : Ledger.load folder path = .ok ledger) (time : UInt64) (alarms : Nat) :
    execute folder time alarms (.challenges false (some path)) =
      some (.output .success (Catalog.challenges.map (Listing.line ledger)), folder) := by
  simp [execute, list, hload]

/-- **What the listing marks.** With a ledger that loads, the listing has a line for each built-in challenge. The line
says "done" just if the ledger has the challenge as completed or knows a step count for it, and "locked" just if the
challenge is locked and neither is the case. So if every entry with a step count is completed, as in all ledgers that
recording makes, "done" stands in the lines of the completed challenges, and "locked" in those of the challenges that
are locked and not completed. -/
theorem list_marks_noted (hload : Ledger.load folder path = .ok ledger) (time : UInt64) (alarms : Nat) :
    execute folder time alarms (.challenges false (some path)) =
      some (.output .success (Catalog.challenges.map (Listing.line ledger)), folder) ∧
    (∀ c ∈ Catalog.challenges,
      (Listing.Shows (Listing.line ledger c) "done" ↔
        ledger.isCompleted c.id = true ∨ (ledger.get? c.id).bind Ledger.Entry.bestStepCount ≠ none) ∧
      (Listing.Shows (Listing.line ledger c) "locked" ↔
        c.unlocked = false ∧ ledger.isCompleted c.id = false ∧
          (ledger.get? c.id).bind Ledger.Entry.bestStepCount = none)) ∧
    (ledger.IsConsistent → ∀ c ∈ Catalog.challenges,
      (Listing.Shows (Listing.line ledger c) "done" ↔ ledger.isCompleted c.id = true) ∧
      (Listing.Shows (Listing.line ledger c) "locked" ↔ c.unlocked = false ∧ ledger.isCompleted c.id = false)) := by
  refine ⟨execute_challenges hload time alarms, fun c hc => ⟨Listing.shows_done_iff hc, ?_⟩,
    fun hconsistent c hc => ⟨?_, ?_⟩⟩
  · rw [Listing.shows_locked_iff hc, Ledger.IsNoted, not_or, not_not, Bool.not_eq_true]
  · rw [Listing.shows_done_iff hc, hconsistent.isNoted_iff]
  · rw [Listing.shows_locked_iff hc, hconsistent.isNoted_iff, Bool.not_eq_true]

theorem names_progress : Folder.empty.Names "progress.json" ["progress.json"] := by
  have hname : Folder.IsPlainName "progress.json" :=
    ⟨by decide, by decide, by decide, by decide, by decide, by decide⟩
  exact hname.names (Or.inl rfl)

/-- Two challenges were completed, one of them locked: they are marked as done, and the other locked one as locked. -/
theorem list_marks_noted_after_recording :
    let ledger := Ledger.empty.recordAll [⟨"challenge-9", 1, 7⟩, ⟨"challenge-4", 2, 8⟩]
    let folder := Folder.empty.put ["progress.json"] (.file ledger.write.toUTF8)
    Ledger.load folder "progress.json" = .ok ledger ∧ ∀ c ∈ Catalog.challenges,
      (Listing.Shows (Listing.line ledger c) "done" ↔ c.id = "challenge-4" ∨ c.id = "challenge-9") ∧
      (Listing.Shows (Listing.line ledger c) "locked" ↔ c.id = "challenge-10") := by
  intro ledger folder
  have hload : Ledger.load folder "progress.json" = .ok ledger := Ledger.load_put names_progress ledger.read?_write
  have hcompleted : ∀ c ∈ Catalog.challenges,
      (ledger.isCompleted c.id = true ↔ c.id = "challenge-4" ∨ c.id = "challenge-9") ∧
      (c.unlocked = false ∧ ledger.isCompleted c.id = false ↔ c.id = "challenge-10") := by
    decide +kernel
  obtain ⟨-, -, hmarks⟩ := list_marks_noted hload 9 0
  refine ⟨hload, fun c hc => ?_⟩
  obtain ⟨hdone, hlocked⟩ := hmarks (Ledger.isConsistent_empty.recordAll _) c hc
  exact ⟨hdone.trans (hcompleted c hc).1, hlocked.trans (hcompleted c hc).2⟩

/-- A locked challenge with a step count that is not completed: its line says that it is done, and not that it is
locked. -/
theorem uncompleted_shown_done :
    let text := "\x7b\"challenge-9\":\x7b\"challengeId\":\"challenge-9\",\"completed\":false,\"bestStepCount\":5\x7d\x7d"
    let folder := Folder.empty.put ["progress.json"] (.file text.toUTF8)
    ∃ ledger, Ledger.read? text = some ledger ∧ Ledger.load folder "progress.json" = .ok ledger ∧
      ∃ c ∈ Catalog.challenges, c.unlocked = false ∧ ledger.isCompleted c.id = false ∧
        Listing.line ledger c = "challenge-9   hard      20  Find Missing Number  done (5 steps)" ∧
        Listing.Shows (Listing.line ledger c) "done" ∧ ¬ Listing.Shows (Listing.line ledger c) "locked" := by
  intro text folder
  let ledger : Ledger := ⟨[("challenge-9", ⟨"challenge-9", false, some 5, none⟩)], by decide⟩
  have hread : Ledger.read? text = some ledger := by decide +kernel
  have hc : Catalog.challenges[8] ∈ Catalog.challenges := List.getElem_mem _
  have hnoted : ledger.IsNoted Catalog.challenges[8].id := .inr (by decide)
  refine ⟨ledger, hread, Ledger.load_put names_progress hread, Catalog.challenges[8], hc, rfl, by decide,
    by decide +kernel, (Listing.shows_done_iff hc).2 hnoted, ?_⟩
  rw [Listing.shows_locked_iff hc]
  exact fun h => h.2 hnoted

end Command

end SeatMachine
