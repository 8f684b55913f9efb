/-!
# String literals

Inside quotes a text is written with as few escapes as the format allows: the quote, the backslash
and the control characters below U+0020. Reading accepts every escape, also the two halves of a
surrogate pair. A literal is first read into code units, one for each character or escape; the
units then denote a text unless a surrogate stands without its partner.

`ofUnits?_map_toNat` says that the units of a text denote that text.
-/
namespace SeatMachine.Json.Text

/-! ## Writing -/

/-- The characters that stand for `c` inside quotes. -/
def escapeChar (c : Char) : List Char :=
  if c = '"' then ['\\', '"']
  else if c = '\\' then ['\\', '\\']
  else if c = '\x08' then ['\\', 'b']
  else if c = '\x0c' then ['\\', 'f']
  else if c = '\n' then ['\\', 'n']
  else if c = '\r' then ['\\', 'r']
  else if c = '\t' then ['\\', 't']
  else if c.toNat < 0x20 then
    ['\\', 'u', '0', '0', Nat.digitChar (c.toNat / 16), Nat.digitChar (c.toNat % 16)]
  else [c]

def escape (cs : List Char) : List Char :=
  cs.flatMap escapeChar

/-- The literal of a text. A literal that denotes no text is written as a lone surrogate. -/
def literal : Option String → List Char
  | some s => '"' :: escape s.toList ++ ['"']
  | none => ['"', '\\', 'u', 'd', '8', '0', '0', '"']

/-! ## Reading -/

/-- The code unit of a one-letter escape. -/
def escapedUnit? (c : Char) : Option Nat :=
  if c = '"' then some 0x22
  else if c = '\\' then some 0x5c
  else if c = '/' then some 0x2f
  else if c = 'b' then some 0x08
  else if c = 'f' then some 0x0c
  else if c = 'n' then some 0x0a
  else if c = 'r' then some 0x0d
  else if c = 't' then some 0x09
  else none

/-- The value of a hexadecimal digit of either case. -/
def hexValue? (c : Char) : Option Nat :=
  if '0' ≤ c ∧ c ≤ '9' then some (c.toNat - '0'.toNat)
  else if 'a' ≤ c ∧ c ≤ 'f' then some (c.toNat - 'a'.toNat + 10)
  else if 'A' ≤ c ∧ c ≤ 'F' then some (c.toNat - 'A'.toNat + 10)
  else none

def isHighSurrogate (unit : Nat) : Bool :=
  decide (0xd800 ≤ unit ∧ unit < 0xdc00)

def isLowSurrogate (unit : Nat) : Bool :=
  decide (0xdc00 ≤ unit ∧ unit < 0xe000)

/-- The characters that code units denote; a surrogate must have its partner next to it. -/
def ofUnits? : List Nat → Option (List Char)
  | [] => some []
  | [unit] =>
    if isHighSurrogate unit || isLowSurrogate unit then none else some [Char.ofNat unit]
  | unit :: next :: rest =>
    if isHighSurrogate unit then
      if isLowSurrogate next then
        (ofUnits? rest).map (Char.ofNat (0x10000 + (unit - 0xd800) * 0x400 + (next - 0xdc00)) :: ·)
      else none
    else if isLowSurrogate unit then none
    else (ofUnits? (next :: rest)).map (Char.ofNat unit :: ·)

def textOfUnits? (units : List Nat) : Option String :=
  (ofUnits? units).map String.ofList

theorem isHighSurrogate_toNat (c : Char) : isHighSurrogate c.toNat = false := by
  have := c.valid
  simp only [UInt32.isValidChar, Nat.isValidChar] at this
  simp only [isHighSurrogate, Char.toNat, decide_eq_false_iff_not]
  omega

theorem isLowSurrogate_toNat (c : Char) : isLowSurrogate c.toNat = false := by
  have := c.valid
  simp only [UInt32.isValidChar, Nat.isValidChar] at this
  simp only [isLowSurrogate, Char.toNat, decide_eq_false_iff_not]
  omega

theorem ofUnits?_map_toNat (cs : List Char) : ofUnits? (cs.map Char.toNat) = some cs := by
  induction cs with
  | nil => rfl
  | cons c cs ih =>
    cases cs with
    | nil => simp [ofUnits?, isHighSurrogate_toNat, isLowSurrogate_toNat]
    | cons d ds =>
      simp only [List.map_cons] at ih ⊢
      simp [ofUnits?, isHighSurrogate_toNat, isLowSurrogate_toNat, ih]

end SeatMachine.Json.Text
