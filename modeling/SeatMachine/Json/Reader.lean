import SeatMachine.Json.Token
/-!
# Reading

Tokens are put together by a machine that keeps the arrays and objects that are still open on a
stack, innermost first. Each token either opens a container, completes a value, which then goes
into the innermost open container, or is punctuation that the phase expects.

`Json.parse?` reads a text; it accepts exactly one value with blanks around it.
-/
namespace SeatMachine.Json

/-- A container that is still open, with what it holds so far, newest first. -/
inductive Reader.Open where
  | array (items : List Json)
  | object (members : List (Option String × Json))
  /-- An object that waits for the value of a member. -/
  | member (members : List (Option String × Json)) (name : Option String)

/-- What may come next. -/
inductive Reader.Phase where
  /-- A value. -/
  | value
  /-- A value, or the end of the array just opened. -/
  | firstItem
  /-- The name of a member. -/
  | name
  /-- The name of a member, or the end of the object just opened. -/
  | firstName
  /-- The colon between a name and its value. -/
  | colon
  /-- A comma or the end of the innermost container. -/
  | afterValue
  /-- Nothing: the document is complete. -/
  | done (value : Json)

/-- The machine: the open containers, innermost first, and what may come next. -/
structure Reader where
  stack : List Reader.Open
  phase : Reader.Phase

namespace Reader

def start : Reader :=
  ⟨[], .value⟩

/-- Puts a complete value into the innermost open container. -/
def fill (value : Json) : List Open → Option Reader
  | [] => some ⟨[], .done value⟩
  | .array items :: stack => some ⟨.array (value :: items) :: stack, .afterValue⟩
  | .member members name :: stack => some ⟨.object ((name, value) :: members) :: stack, .afterValue⟩
  | .object _ :: _ => none

/-- Takes a whole value, or the start of one. -/
def takeValue (stack : List Open) : Token → Option Reader
  | .openArray => some ⟨.array [] :: stack, .firstItem⟩
  | .openObject => some ⟨.object [] :: stack, .firstName⟩
  | .null => fill .null stack
  | .bool b => fill (.bool b) stack
  | .number n => fill (.number n) stack
  | .string s => fill (.string s) stack
  | _ => none

/-- Ends the innermost container. -/
def close : List Open → Token → Option Reader
  | .array items :: stack, .closeArray => fill (.array items.reverse) stack
  | .object members :: stack, .closeObject => fill (.object members.reverse) stack
  | _, _ => none

def takeName : List Open → Token → Option Reader
  | .object members :: stack, .string name => some ⟨.member members name :: stack, .colon⟩
  | _, _ => none

/-- Goes on after a comma. -/
def next : List Open → Option Reader
  | .array items :: stack => some ⟨.array items :: stack, .value⟩
  | .object members :: stack => some ⟨.object members :: stack, .name⟩
  | _ => none

/-- Takes in one token; `none` if it cannot stand there. -/
def feed (reader : Reader) (token : Token) : Option Reader :=
  match reader.phase with
  | .value => takeValue reader.stack token
  | .firstItem =>
    match token with
    | .closeArray => close reader.stack .closeArray
    | token => takeValue reader.stack token
  | .name => takeName reader.stack token
  | .firstName =>
    match token with
    | .closeObject => close reader.stack .closeObject
    | token => takeName reader.stack token
  | .colon =>
    match token with
    | .colon => some ⟨reader.stack, .value⟩
    | _ => none
  | .afterValue =>
    match token with
    | .comma => next reader.stack
    | token => close reader.stack token
  | .done _ => none

/-- The document at the end of the tokens. -/
def finish (reader : Reader) : Option Json :=
  match reader.phase with
  | .done value => some value
  | _ => none

end Reader

def ofTokens? (tokens : List Token) : Option Json :=
  (tokens.foldlM Reader.feed Reader.start).bind Reader.finish

/-- Reads a text that holds one value. -/
def parse? (text : String) : Option Json :=
  (Token.ofChars? text.toList).bind ofTokens?

end SeatMachine.Json
