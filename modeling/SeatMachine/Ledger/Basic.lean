/-!
# The ledger

A ledger keeps, for each challenge id, whether the challenge was completed, in how few steps, and
when it was first completed. Its entries are sorted by id, so equal ledgers are written alike.
-/
namespace SeatMachine

/-- What the ledger keeps of one challenge. -/
structure Ledger.Entry where
  challengeId : String
  completed : Bool
  bestStepCount : Option UInt64
  /-- Milliseconds since the start of 1970. -/
  completedAt : Option UInt64
deriving DecidableEq, Repr

namespace Ledger.Entry

/-- The entry of a challenge nothing is known of. -/
def blank (id : String) : Entry :=
  { challengeId := id, completed := false, bestStepCount := none, completedAt := none }

/-- The entry after one more completion: the best step count only goes down, and the first time is
kept. -/
def complete (e : Entry) (steps time : UInt64) : Entry :=
  { e with
    completed := true
    bestStepCount := some (match e.bestStepCount with
      | none => steps
      | some best => min best steps)
    completedAt := some (e.completedAt.getD time) }

end Ledger.Entry

/-- Entries by id, in strictly ascending order of the ids. -/
structure Ledger where
  entries : List (String × Ledger.Entry)
  sorted : entries.Pairwise fun a b => a.1 < b.1
deriving DecidableEq

namespace Ledger

def empty : Ledger :=
  ⟨[], .nil⟩

def size (l : Ledger) : Nat :=
  l.entries.length

/-! ## Insertion -/

/-- Puts an entry in its place; an entry with the same id is replaced. -/
def insertEntry (id : String) (e : Entry) : List (String × Entry) → List (String × Entry)
  | [] => [(id, e)]
  | (id', e') :: rest =>
    if id < id' then (id, e) :: (id', e') :: rest
    else if id' < id then (id', e') :: insertEntry id e rest
    else (id, e) :: rest

theorem mem_insertEntry {id : String} {e : Entry} {x : String × Entry} :
    ∀ {entries : List (String × Entry)}, x ∈ insertEntry id e entries → x = (id, e) ∨ x ∈ entries
  | [], h => by simpa [insertEntry] using h
  | (id', e') :: rest, h => by
    rw [insertEntry] at h
    split at h
    · simpa using h
    · split at h
      · rcases List.mem_cons.1 h with rfl | h
        · exact .inr List.mem_cons_self
        · exact (mem_insertEntry h).imp_right (.tail _)
      · rcases List.mem_cons.1 h with rfl | h
        · exact .inl rfl
        · exact .inr (.tail _ h)

theorem sorted_insertEntry (id : String) (e : Entry) :
    ∀ {entries : List (String × Entry)}, entries.Pairwise (fun a b => a.1 < b.1) →
      (insertEntry id e entries).Pairwise fun a b => a.1 < b.1
  | [], _ => by simp [insertEntry]
  | (id', e') :: rest, h => by
    obtain ⟨hhead, hrest⟩ := List.pairwise_cons.1 h
    rw [insertEntry]
    split
    · next hlt =>
      refine List.pairwise_cons.2 ⟨fun x hx => ?_, h⟩
      rcases List.mem_cons.1 hx with rfl | hx
      · exact hlt
      · exact String.lt_trans hlt (hhead x hx)
    · next hge =>
      split
      · next hgt =>
        refine List.pairwise_cons.2 ⟨fun x hx => ?_, sorted_insertEntry id e hrest⟩
        rcases mem_insertEntry hx with rfl | hx
        · exact hgt
        · exact hhead x hx
      · next hle =>
        have heq : id = id' := String.le_antisymm (String.not_lt.1 hle) (String.not_lt.1 hge)
        subst heq
        exact List.pairwise_cons.2 ⟨hhead, hrest⟩

def insert (l : Ledger) (id : String) (e : Entry) : Ledger :=
  ⟨insertEntry id e l.entries, sorted_insertEntry id e l.sorted⟩

/-! ## Looking and recording -/

def get? (l : Ledger) (id : String) : Option Entry :=
  l.entries.lookup id

def isCompleted (l : Ledger) (id : String) : Bool :=
  (l.get? id).any Entry.completed

def record (l : Ledger) (id : String) (steps time : UInt64) : Ledger :=
  l.insert id (((l.get? id).getD (.blank id)).complete steps time)

end Ledger

end SeatMachine
