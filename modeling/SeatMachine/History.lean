/-!
# Histories

A history keeps what was pushed, newest first, and can be popped. With a limit it forgets the
oldest entries; a limit of zero keeps nothing.

`entries_push` says what a push does in one equation.
-/
namespace SeatMachine

/-- A history of entries, newest first, and how many of them are kept at most. The number of
entries is kept beside them, so that a push need not count. -/
structure History (α : Type) where
  limit : Option Nat
  entries : List α
  size : Nat
  size_eq : size = entries.length
deriving DecidableEq

namespace History

variable {α : Type}

def empty (limit : Option Nat) : History α :=
  ⟨limit, [], 0, rfl⟩

/-- The history with one more entry and nothing forgotten. -/
def cons (h : History α) (a : α) : History α :=
  ⟨h.limit, a :: h.entries, h.size + 1, by simp [h.size_eq]⟩

/-- Adds an entry and forgets the oldest beyond the limit. -/
def push (h : History α) (a : α) : History α :=
  match h.limit with
  | none => h.cons a
  | some limit =>
    if h.size < limit then h.cons a
    else
      ⟨h.limit, (a :: h.entries).take limit, min limit (h.size + 1), by simp [h.size_eq]⟩

/-- The newest entry, and the history before it. -/
def pop? (h : History α) : Option (α × History α) :=
  match h with
  | ⟨_, [], _, _⟩ => none
  | ⟨limit, a :: rest, size, size_eq⟩ => some (a, ⟨limit, rest, size - 1, by simp [size_eq]⟩)

def last? (h : History α) : Option α :=
  h.entries.head?

/-- The entries, oldest first. -/
def toList (h : History α) : List α :=
  h.entries.reverse

@[ext]
theorem ext {h k : History α} (hl : h.limit = k.limit) (he : h.entries = k.entries) : h = k := by
  obtain ⟨_, _, _, hs⟩ := h
  obtain ⟨_, _, _, ks⟩ := k
  simp only at hl he
  subst hl he hs ks
  rfl

@[simp]
theorem limit_push (h : History α) (a : α) : (h.push a).limit = h.limit := by
  simp only [push]
  split
  · rfl
  · split <;> rfl

/-- A push puts the entry in front and keeps as many as the limit allows. -/
theorem entries_push (h : History α) (a : α) :
    (h.push a).entries =
      match h.limit with
      | none => a :: h.entries
      | some limit => if h.entries.length < limit then a :: h.entries
        else (a :: h.entries).take limit := by
  simp only [push, h.size_eq]
  split
  · rfl
  · split <;> rfl

theorem pop?_cons (h : History α) (a : α) : (h.cons a).pop? = some (a, h) := by
  simp only [pop?, cons, Option.some.injEq, Prod.mk.injEq, true_and]
  exact History.ext rfl rfl

end History

end SeatMachine
