import SeatMachine.Json.Token
/-!
# Writing

There are two layouts. The compact one has no blanks. The indented one puts every item and member
on a line of its own, two spaces further in than its container, with a space after each colon; an
empty container stays on one line.
-/
namespace SeatMachine.Json

/-! ## Compact layout -/

mutual

def tokens : Json → List Token
  | .null => [.null]
  | .bool b => [.bool b]
  | .number n => [.number n]
  | .string s => [.string s]
  | .array items => .openArray :: (itemTokens items ++ [.closeArray])
  | .object members => .openObject :: (memberTokens members ++ [.closeObject])
termination_by structural j => j

/-- The tokens of items, with commas between them. -/
def itemTokens : List Json → List Token
  | [] => []
  | item :: items => item.tokens ++ moreItemTokens items
termination_by structural items => items

/-- The tokens of items that follow another. -/
def moreItemTokens : List Json → List Token
  | [] => []
  | item :: items => .comma :: (item.tokens ++ moreItemTokens items)
termination_by structural items => items

def memberTokens : List (Option String × Json) → List Token
  | [] => []
  | (name, value) :: members => .string name :: .colon :: (value.tokens ++ moreMemberTokens members)
termination_by structural members => members

def moreMemberTokens : List (Option String × Json) → List Token
  | [] => []
  | (name, value) :: members =>
    .comma :: .string name :: .colon :: (value.tokens ++ moreMemberTokens members)
termination_by structural members => members

end

/-- The text of a value without blanks. -/
def compact (j : Json) : String :=
  String.ofList (j.tokens.flatMap Token.chars)

/-! ## Indented layout -/

/-- The start of a line, `level` steps in. -/
def newLine (level : Nat) : List Char :=
  '\n' :: List.replicate (2 * level) ' '

mutual

/-- The characters of a value inside `level` open containers. -/
def indentedChars (level : Nat) : Json → List Char
  | .null => Token.chars .null
  | .bool b => Token.chars (.bool b)
  | .number n => Token.chars (.number n)
  | .string s => Token.chars (.string s)
  | .array [] => ['[', ']']
  | .array (item :: items) =>
    '[' :: (newLine (level + 1) ++ indentedChars (level + 1) item ++ moreIndentedItems level items)
  | .object [] => ['\x7b', '\x7d']
  | .object ((name, value) :: members) =>
    '\x7b' :: (newLine (level + 1) ++ Text.literal name ++ ':' :: ' ' ::
      (indentedChars (level + 1) value ++ moreIndentedMembers level members))
termination_by structural j => j

/-- The items that follow another, up to the end of their array. -/
def moreIndentedItems (level : Nat) : List Json → List Char
  | [] => newLine level ++ [']']
  | item :: items =>
    ',' :: (newLine (level + 1) ++ indentedChars (level + 1) item ++ moreIndentedItems level items)
termination_by structural items => items

/-- The members that follow another, up to the end of their object. -/
def moreIndentedMembers (level : Nat) : List (Option String × Json) → List Char
  | [] => newLine level ++ ['\x7d']
  | (name, value) :: members =>
    ',' :: (newLine (level + 1) ++ Text.literal name ++ ':' :: ' ' ::
      (indentedChars (level + 1) value ++ moreIndentedMembers level members))
termination_by structural members => members

end

def indented (j : Json) : String :=
  String.ofList (j.indentedChars 0)

end SeatMachine.Json
