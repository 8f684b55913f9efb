/-!
# Number literals

A number is kept as it is spelled: its sign, the digits before the point, the digits after it,
and the exponent. Two readings of the spelling matter here:

* `Number.toInt?`: the integer it denotes. Only a literal without point and exponent denotes one,
  and `-0` does not: it is a floating-point zero.
* `Number.isFinite`: whether its floating-point reading is a finite double.

`toInt?_ofInt` says that the literal of an integer denotes it.
-/
namespace SeatMachine.Json

/-- A number literal, digit by digit. `fraction` is empty when there is no point; `exponent` holds
whether the exponent is negative, and its digits. -/
structure Number where
  negative : Bool
  whole : List Char
  fraction : List Char
  exponent : Option (Bool × List Char)
deriving DecidableEq, Repr

namespace Number

/-! ## Spelling -/

/-- Splits a leading minus sign off. -/
def takeSign : List Char → Bool × List Char
  | '-' :: rest => (true, rest)
  | cs => (false, cs)

/-- The whole part is a lone zero, or starts with another digit. -/
def isWhole : List Char → Bool
  | [] => false
  | ['0'] => true
  | d :: _ => d != '0'

/-- Splits a fraction off: a point and at least one digit, or nothing. -/
def takeFraction : List Char → Option (List Char × List Char)
  | '.' :: rest =>
    if (rest.takeWhile Char.isDigit).isEmpty then none
    else some (rest.takeWhile Char.isDigit, rest.dropWhile Char.isDigit)
  | cs => some ([], cs)

/-- The digits of an exponent, with their sign. -/
def exponentDigits : List Char → Bool × List Char
  | '-' :: rest => (true, rest)
  | '+' :: rest => (false, rest)
  | cs => (false, cs)

/-- Reads an exponent that must reach to the end of the literal. -/
def takeExponent : List Char → Option (Option (Bool × List Char))
  | [] => some none
  | e :: rest =>
    let digits := (exponentDigits rest).2
    if (e == 'e' || e == 'E') && !digits.isEmpty && digits.all Char.isDigit then
      some (some (exponentDigits rest))
    else none

def ofChars? (cs : List Char) : Option Number :=
  let negative := (takeSign cs).1
  let digits := (takeSign cs).2
  let whole := digits.takeWhile Char.isDigit
  if isWhole whole then
    match takeFraction (digits.dropWhile Char.isDigit) with
    | none => none
    | some (fraction, rest) => (takeExponent rest).map fun exponent =>
      { negative, whole, fraction, exponent }
  else none

def chars (n : Number) : List Char :=
  (if n.negative then ['-'] else []) ++ n.whole ++
    (if n.fraction.isEmpty then [] else '.' :: n.fraction) ++
    (match n.exponent with
      | none => []
      | some (true, digits) => 'e' :: '-' :: digits
      | some (false, digits) => 'e' :: digits)

/-! ## Integers -/

/-- The value of the digits before the point. -/
def magnitude (n : Number) : Nat :=
  Nat.ofDigitChars 10 n.whole 0

/-- The integer a literal denotes, if it denotes one. -/
def toInt? (n : Number) : Option Int :=
  if n.fraction.isEmpty && n.exponent.isNone && !(n.negative && n.magnitude == 0) then
    some (if n.negative then -(n.magnitude : Int) else n.magnitude)
  else none

def ofInt (i : Int) : Number where
  negative := decide (i < 0)
  whole := Nat.toDigits 10 i.natAbs
  fraction := []
  exponent := none

@[simp]
theorem magnitude_ofInt (i : Int) : (ofInt i).magnitude = i.natAbs :=
  Nat.ofDigitChars_toDigits (by decide) (by decide)

theorem toInt?_ofInt (i : Int) : (ofInt i).toInt? = some i := by
  simp only [toInt?, magnitude_ofInt]
  by_cases h : i < 0
  · have hne : (i.natAbs == 0) = false := by simp; omega
    have hi : -(i.natAbs : Int) = i := by omega
    simp only [ofInt, h, hne, hi, List.isEmpty_nil, Option.isNone_none, Bool.and_self,
      decide_true, Bool.and_false, Bool.not_false, if_true]
  · have hi : (i.natAbs : Int) = i := by omega
    simp only [ofInt, h, hi, List.isEmpty_nil, Option.isNone_none, Bool.and_self, decide_false,
      Bool.false_and, Bool.not_false, if_true, Bool.false_eq_true, if_false]

theorem toDigits_head (n : Nat) (h : 0 < n) : ∃ d ds, Nat.toDigits 10 n = d :: ds ∧ d ≠ '0' := by
  induction n using Nat.strongRecOn with
  | _ n ih =>
    by_cases hn : n < 10
    · rw [Nat.toDigits_of_lt_base hn]
      refine ⟨_, _, rfl, ?_⟩
      have : ∀ k, k < 10 → 0 < k → Nat.digitChar k ≠ '0' := by decide
      exact this n hn h
    · obtain ⟨d, ds, hd, h0⟩ := ih (n / 10) (by omega) (by omega)
      rw [Nat.toDigits_of_base_le (by decide) (by omega), hd]
      exact ⟨d, _, rfl, h0⟩

theorem isWhole_toDigits (n : Nat) : isWhole (Nat.toDigits 10 n) = true := by
  by_cases h : n = 0
  · subst h; rfl
  · obtain ⟨d, ds, hd, h0⟩ := toDigits_head n (by omega)
    rw [hd, isWhole.eq_def]
    split <;> simp_all

/-! ## Finiteness

The floating-point reading keeps a 64-bit significand: digits are taken in for as long as they fit,
further whole digits only raise the decimal exponent, and further fraction digits are dropped. The
value is the product of the doubles nearest to the significand and to the power of ten; only that
product can overflow. -/

/-- Takes digits into the significand until the next one does not fit. Returns the significand and
the number of digits left over. -/
def accumulate (significand : Nat) : List Char → Nat × Nat
  | [] => (significand, 0)
  | d :: ds =>
    let next := significand * 10 + (d.toNat - '0'.toNat)
    if next < UInt64.size then accumulate next ds else (significand, ds.length + 1)

/-- The 64-bit significand of a literal and its decimal exponent. -/
def parts (n : Number) : Nat × Int :=
  let whole := accumulate 0 n.whole
  let all := accumulate whole.1 n.fraction
  let scale : Int := whole.2 - ((n.fraction.length - all.2 : Nat) : Int)
  match n.exponent with
  | none => (all.1, scale)
  | some (true, digits) => (all.1, scale - Nat.ofDigitChars 10 digits 0)
  | some (false, digits) => (all.1, scale + Nat.ofDigitChars 10 digits 0)

/-- The nearest number with 53 significant bits; a tie goes to the even neighbour. -/
def nearestDouble (n : Nat) : Nat :=
  if n < Nat.pow 2 53 then n
  else
    let unit := Nat.pow 2 (Nat.log2 n - 52)
    let below := n / unit
    let rest := n % unit
    if unit < 2 * rest || (unit == 2 * rest && below % 2 == 1) then (below + 1) * unit
    else below * unit

/-- The least magnitude that rounds to infinity: half a unit above the largest finite double. -/
def overflowBound : Nat :=
  Nat.pow 2 1024 - Nat.pow 2 970

/-- The floating-point reading of the literal is finite. -/
def isFinite (n : Number) : Bool :=
  let significand := n.parts.1
  let scale := n.parts.2
  if significand == 0 || scale < 0 then true
  else if 308 < scale then false
  else decide (nearestDouble significand * nearestDouble (Nat.pow 10 scale.toNat) < overflowBound)

end Number

end SeatMachine.Json
