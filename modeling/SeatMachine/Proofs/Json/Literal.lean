import SeatMachine.Json.Number
/-!
# Number literals

Not every number is spelled by a literal: a list of digits may be empty, or not be digits at all. Reading gives
literals only (`isLiteral_of_ofChars?`), the literal of an integer is one (`isLiteral_ofInt`), and literals survive
being spelled and read (`IsLiteral.ofChars?_chars`): the digits before the point end where the fraction or the
exponent begins, and these begin with a character that is not a digit.
-/
namespace SeatMachine.Json.Number

/-! ## Literals -/

/-- There are digits where digits belong, and as many as a literal must have. -/
structure IsLiteral (n : Number) : Prop where
  whole : isWhole n.whole = true
  wholeDigits : ∀ c ∈ n.whole, c.isDigit = true
  fractionDigits : ∀ c ∈ n.fraction, c.isDigit = true
  exponentDigits : ∀ e ∈ n.exponent, e.2 ≠ [] ∧ ∀ c ∈ e.2, c.isDigit = true

theorem isDigit_of_mem_takeWhile {cs : List Char} {c : Char} (h : c ∈ cs.takeWhile Char.isDigit) :
    c.isDigit = true :=
  List.all_eq_true.1 List.all_takeWhile c h

theorem isLiteral_takeFraction {cs fraction rest : List Char} (h : takeFraction cs = some (fraction, rest)) :
    ∀ c ∈ fraction, c.isDigit = true := by
  unfold takeFraction at h
  split at h
  · split at h
    · cases h
    · cases h
      exact fun c hc => isDigit_of_mem_takeWhile hc
  · cases h
    exact fun c hc => absurd hc List.not_mem_nil

theorem isLiteral_takeExponent {cs : List Char} {exponent : Option (Bool × List Char)}
    (h : takeExponent cs = some exponent) :
    ∀ e ∈ exponent, e.2 ≠ [] ∧ ∀ c ∈ e.2, c.isDigit = true := by
  unfold takeExponent at h
  split at h
  · cases h
    exact fun e he => absurd he (by simp)
  · dsimp only at h
    split at h
    · next hdigits =>
      cases h
      rintro e he
      cases he
      simp only [Bool.and_eq_true, Bool.not_eq_true', List.isEmpty_eq_false_iff, List.all_eq_true] at hdigits
      exact ⟨hdigits.1.2, hdigits.2⟩
    · cases h

/-- Reading gives literals. -/
theorem isLiteral_of_ofChars? {cs : List Char} {n : Number} (h : ofChars? cs = some n) : n.IsLiteral := by
  simp only [ofChars?] at h
  split at h
  · next hwhole =>
    split at h
    · cases h
    · next fraction rest hfraction =>
      obtain ⟨exponent, hexponent, rfl⟩ := Option.map_eq_some_iff.1 h
      exact ⟨hwhole, fun c hc => isDigit_of_mem_takeWhile hc, isLiteral_takeFraction hfraction,
        isLiteral_takeExponent hexponent⟩
  · cases h

/-- The literal of an integer. -/
theorem isLiteral_ofInt (i : Int) : (ofInt i).IsLiteral where
  whole := isWhole_toDigits _
  wholeDigits _ hc := Nat.isDigit_of_mem_toDigits (by decide) (by decide) hc
  fractionDigits c hc := absurd hc List.not_mem_nil
  exponentDigits e he := nomatch he

/-! ## Spelling -/

/-- Digits end where something else begins. -/
theorem span_digits {ds rest : List Char} (hds : ∀ c ∈ ds, c.isDigit = true)
    (hrest : ∀ c ∈ rest.head?, c.isDigit = false) :
    (ds ++ rest).takeWhile Char.isDigit = ds ∧ (ds ++ rest).dropWhile Char.isDigit = rest := by
  rw [List.takeWhile_append_of_pos hds, List.dropWhile_append_of_pos hds]
  cases rest with
  | nil => simp
  | cons c rest =>
    have hc : c.isDigit = false := hrest c rfl
    simp [hc]

def exponentChars : Option (Bool × List Char) → List Char
  | none => []
  | some (true, digits) => 'e' :: '-' :: digits
  | some (false, digits) => 'e' :: digits

def fractionChars (fraction : List Char) : List Char :=
  if fraction.isEmpty then [] else '.' :: fraction

theorem chars_eq (n : Number) :
    n.chars = (if n.negative then ['-'] else []) ++
      (n.whole ++ (fractionChars n.fraction ++ exponentChars n.exponent)) := by
  obtain ⟨negative, whole, fraction, exponent⟩ := n
  rcases exponent with _ | ⟨_ | _, digits⟩ <;> simp [chars, fractionChars, exponentChars]

theorem head_exponentChars (exponent : Option (Bool × List Char)) :
    ∀ c ∈ (exponentChars exponent).head?, c = 'e' := by
  rcases exponent with _ | ⟨_ | _, digits⟩ <;> simp [exponentChars]

theorem ne_of_isDigit {c d : Char} (hc : c.isDigit = true) (hd : d.isDigit = false) : c ≠ d := by
  rintro rfl
  rw [hc] at hd
  cases hd

namespace IsLiteral

variable {n : Number}

theorem takeSign_eq (h : n.IsLiteral) (rest : List Char) :
    takeSign ((if n.negative then ['-'] else []) ++ (n.whole ++ rest)) = (n.negative, n.whole ++ rest) := by
  cases hneg : n.negative with
  | true => rfl
  | false =>
    cases hw : n.whole with
    | nil => exact absurd h.whole (by rw [hw]; decide)
    | cons d ds =>
      have hd : d ≠ '-' := ne_of_isDigit (h.wholeDigits d (by simp [hw])) rfl
      simp [takeSign, hd]

theorem takeFraction_eq (h : n.IsLiteral) :
    takeFraction (fractionChars n.fraction ++ exponentChars n.exponent) =
      some (n.fraction, exponentChars n.exponent) := by
  have hhead := head_exponentChars n.exponent
  cases hf : n.fraction with
  | nil =>
    cases he : exponentChars n.exponent with
    | nil => rfl
    | cons e rest =>
      obtain rfl : e = 'e' := hhead e (by simp [he])
      rfl
  | cons d ds =>
    have hspan := span_digits (hf ▸ h.fractionDigits) (fun c hc => by rw [hhead c hc]; rfl)
    rw [List.cons_append] at hspan
    simp [fractionChars, takeFraction, hspan]

theorem takeExponent_eq (h : n.IsLiteral) : takeExponent (exponentChars n.exponent) = some n.exponent := by
  cases he : n.exponent with
  | none => rfl
  | some e =>
    obtain ⟨negative, digits⟩ := e
    obtain ⟨hne, hdigits⟩ := h.exponentDigits (negative, digits) he
    have hall : digits.all Char.isDigit = true := List.all_eq_true.2 hdigits
    cases negative with
    | true => simpa [exponentChars, takeExponent, Number.exponentDigits, hne] using hdigits
    | false =>
      cases digits with
      | nil => exact absurd rfl hne
      | cons d ds =>
        have hd : d.isDigit = true := hdigits d List.mem_cons_self
        have hplain : Number.exponentDigits (d :: ds) = (false, d :: ds) := by
          simp [Number.exponentDigits, ne_of_isDigit hd (d := '-') rfl, ne_of_isDigit hd (d := '+') rfl]
        simp [exponentChars, takeExponent, hplain, hall]

/-- A spelled literal reads back. -/
theorem ofChars?_chars (h : n.IsLiteral) : ofChars? n.chars = some n := by
  have hrest : ∀ c ∈ (fractionChars n.fraction ++ exponentChars n.exponent).head?, c.isDigit = false := by
    intro c hc
    cases hf : n.fraction with
    | nil =>
      rw [hf] at hc
      rw [head_exponentChars n.exponent c hc]
      rfl
    | cons d ds =>
      rw [hf] at hc
      cases hc
      rfl
  obtain ⟨htake, hdrop⟩ := span_digits h.wholeDigits hrest
  rw [chars_eq]
  simp only [ofChars?, h.takeSign_eq, htake, hdrop, h.whole, if_true, h.takeFraction_eq, h.takeExponent_eq,
    Option.map_some]

end IsLiteral

end SeatMachine.Json.Number
