import SeatMachine.Json.Basic
import SeatMachine.Json.Text
/-!
# Tokens

A JSON text is cut into tokens by a machine that looks at one character at a time. Quotes and
punctuation stand for themselves; blanks separate; every other run of characters is a word, which
must be a number or one of `null`, `true` and `false`.

`Token.ofChars?` runs the machine over a whole text; `Token.chars` spells one token.
-/
namespace SeatMachine.Json

/-- The pieces a text is made of. -/
inductive Token where
  | openArray
  | closeArray
  | openObject
  | closeObject
  | comma
  | colon
  | null
  | bool (value : Bool)
  | number (literal : Number)
  | string (text : Option String)
deriving DecidableEq, Repr

namespace Token

/-! ## Characters by role -/

/-- Blanks are the space, the tabulator, the line feed and the carriage return. -/
def isBlank (c : Char) : Bool :=
  c == ' ' || c == '\t' || c == '\n' || c == '\r'

def ofPunctuation? (c : Char) : Option Token :=
  if c = '[' then some .openArray
  else if c = ']' then some .closeArray
  else if c = '\x7b' then some .openObject
  else if c = '\x7d' then some .closeObject
  else if c = ',' then some .comma
  else if c = ':' then some .colon
  else none

def ofWord? (word : List Char) : Option Token :=
  if word = ['n', 'u', 'l', 'l'] then some .null
  else if word = ['t', 'r', 'u', 'e'] then some (.bool true)
  else if word = ['f', 'a', 'l', 's', 'e'] then some (.bool false)
  else (Number.ofChars? word).map .number

def chars : Token → List Char
  | .openArray => ['[']
  | .closeArray => [']']
  | .openObject => ['\x7b']
  | .closeObject => ['\x7d']
  | .comma => [',']
  | .colon => [':']
  | .null => ['n', 'u', 'l', 'l']
  | .bool true => ['t', 'r', 'u', 'e']
  | .bool false => ['f', 'a', 'l', 's', 'e']
  | .number n => n.chars
  | .string s => Text.literal s

end Token

/-! ## The machine -/

/-- Where the machine stands. Words and code units are collected newest first. -/
inductive Lexer.Mode where
  /-- Between tokens. -/
  | between
  /-- Inside a word. -/
  | word (letters : List Char)
  /-- Inside quotes. -/
  | quoted (units : List Nat)
  /-- After a backslash. -/
  | escape (units : List Nat)
  /-- Inside a numeric escape: how many digits were read, and their value. -/
  | numeric (units : List Nat) (count value : Nat)
deriving DecidableEq, Repr

/-- The machine: its mode, and the tokens it has found, newest first. -/
structure Lexer where
  mode : Lexer.Mode
  tokens : List Token
deriving DecidableEq, Repr

namespace Lexer

def start : Lexer :=
  ⟨.between, []⟩

def emit (lexer : Lexer) (token : Token) : Lexer :=
  ⟨.between, token :: lexer.tokens⟩

/-- A character between two tokens. -/
def enter (tokens : List Token) (c : Char) : Lexer :=
  if Token.isBlank c then ⟨.between, tokens⟩
  else if c = '"' then ⟨.quoted [], tokens⟩
  else match Token.ofPunctuation? c with
    | some token => ⟨.between, token :: tokens⟩
    | none => ⟨.word [c], tokens⟩

def endsWord (c : Char) : Bool :=
  Token.isBlank c || c == '"' || (Token.ofPunctuation? c).isSome

/-- Takes in one character; `none` if the text is broken there. -/
def feed (lexer : Lexer) (c : Char) : Option Lexer :=
  match lexer.mode with
  | .between => some (enter lexer.tokens c)
  | .word letters =>
    if endsWord c then
      (Token.ofWord? letters.reverse).map fun token => enter (token :: lexer.tokens) c
    else some { lexer with mode := .word (c :: letters) }
  | .quoted units =>
    if c = '"' then some (lexer.emit (.string (Text.textOfUnits? units.reverse)))
    else if c = '\\' then some { lexer with mode := .escape units }
    else if c.toNat < 0x20 then none
    else some { lexer with mode := .quoted (c.toNat :: units) }
  | .escape units =>
    if c = 'u' then some { lexer with mode := .numeric units 0 0 }
    else (Text.escapedUnit? c).map fun unit => { lexer with mode := .quoted (unit :: units) }
  | .numeric units count value =>
    (Text.hexValue? c).map fun digit =>
      if count = 3 then { lexer with mode := .quoted ((value * 16 + digit) :: units) }
      else { lexer with mode := .numeric units (count + 1) (value * 16 + digit) }

/-- The tokens at the end of the text; `none` inside an unfinished string. -/
def finish (lexer : Lexer) : Option (List Token) :=
  match lexer.mode with
  | .between => some lexer.tokens.reverse
  | .word letters =>
    (Token.ofWord? letters.reverse).map fun token => (token :: lexer.tokens).reverse
  | _ => none

end Lexer

def Token.ofChars? (cs : List Char) : Option (List Token) :=
  (cs.foldlM Lexer.feed Lexer.start).bind Lexer.finish

end SeatMachine.Json
