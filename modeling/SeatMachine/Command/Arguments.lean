/-!
# Command lines

There are four commands. Their arguments are read from left to right: options begin with two
dashes and take their value from after an equals sign or from the next word; `--` ends the options.
Help is given where it is asked for; a mistake before that point counts first.
-/
namespace SeatMachine

/-! ## Commands -/

/-- The files an attempt is made from. -/
structure Command.Attempt where
  program : String
  /-- The id of a built-in challenge. -/
  challengeId : Option String
  /-- The file of a challenge definition. -/
  challengeFile : Option String
deriving DecidableEq, Repr

/-- What can be asked for. -/
inductive Command where
  /-- Run a program and tell whether it solves the challenge. -/
  | run (attempt : Command.Attempt) (interval : Nat) (historyLimit : Option Nat)
    (progress : Option String) (stepLimit : Nat)
  /-- Print the machine after every step. -/
  | trace (attempt : Command.Attempt) (stepLimit : Nat)
  /-- Run a program and print the verdict. -/
  | validate (attempt : Command.Attempt) (progress : Option String) (stepLimit : Nat)
  /-- List the built-in challenges. -/
  | challenges (json : Bool) (progress : Option String)
deriving DecidableEq, Repr

namespace Command

/-- What is shown instead of running a command. -/
inductive Page where
  /-- Help was asked for. -/
  | help
  /-- The arguments are not those of a command. -/
  | usage
deriving DecidableEq, Repr

inductive Verb where
  | run
  | trace
  | validate
  | challenges
deriving DecidableEq, Repr

def Verb.all : List Verb :=
  [.run, .trace, .validate, .challenges]

def Verb.name : Verb → String
  | .run => "run"
  | .trace => "trace"
  | .validate => "validate"
  | .challenges => "challenges"

def Verb.ofName? (name : String) : Option Verb :=
  Verb.all.find? fun verb => verb.name == name

def Verb.takesProgram : Verb → Bool
  | .challenges => false
  | _ => true

/-! ## Options -/

inductive Flag where
  | challenge
  | challengeFile
  | intervalMs
  | historyLimit
  | progress
  | stepLimit
  | json
deriving DecidableEq, Repr

namespace Flag

def name : Flag → String
  | .challenge => "challenge"
  | .challengeFile => "challenge-file"
  | .intervalMs => "interval-ms"
  | .historyLimit => "history-limit"
  | .progress => "progress"
  | .stepLimit => "step-limit"
  | .json => "json"

/-- The natural number that digits denote, with or without a plus sign, if it fits a word. -/
def number? (text : String) : Option Nat :=
  let digits := match text.toList with
    | '+' :: digits => digits
    | digits => digits
  if !digits.isEmpty && digits.all Char.isDigit && Nat.ofDigitChars 10 digits 0 < UInt64.size then
    some (Nat.ofDigitChars 10 digits 0)
  else none

/-- The text can be the value of the option: a number, a path that is not empty, or anything. -/
def accepts (flag : Flag) (value : String) : Bool :=
  match flag with
  | .intervalMs | .historyLimit | .stepLimit => (number? value).isSome
  | .challengeFile | .progress => value != ""
  | .challenge | .json => true

end Flag

def Verb.flags : Verb → List Flag
  | .run => [.challenge, .challengeFile, .intervalMs, .historyLimit, .progress, .stepLimit]
  | .trace => [.challenge, .challengeFile, .stepLimit]
  | .validate => [.challenge, .challengeFile, .progress, .stepLimit]
  | .challenges => [.json, .progress]

def Verb.flag? (verb : Verb) (name : String) : Option Flag :=
  verb.flags.find? fun flag => flag.name == name

/-! ## Reading arguments -/

/-- What a single argument looks like. -/
inductive Argument where
  /-- Two dashes alone. -/
  | separator
  /-- An option, with the value after its equals sign. -/
  | long (name : String) (value : Option String)
  /-- Letters after a single dash. -/
  | short (letters : List Char)
  /-- Anything else, a lone dash included. -/
  | word
deriving DecidableEq, Repr

def Argument.ofString (argument : String) : Argument :=
  match argument.toList with
  | ['-', '-'] => .separator
  | '-' :: '-' :: rest =>
    let name := String.ofList (rest.takeWhile (· != '='))
    match rest.dropWhile (· != '=') with
    | [] => .long name none
    | _ :: value => .long name (some (String.ofList value))
  | ['-'] => .word
  | '-' :: letters => .short letters
  | _ => .word

/-- What has been read so far. -/
structure Options where
  program : Option String := none
  values : List (Flag × String) := []
deriving DecidableEq, Repr

namespace Options

def value? (o : Options) (flag : Flag) : Option String :=
  o.values.lookup flag

/-- The value of an option that takes a number. -/
def number? (o : Options) (flag : Flag) : Option Nat :=
  (o.value? flag).bind Flag.number?

/-- Adds an option, which must be new and have a value it accepts. -/
def add (o : Options) (flag : Flag) (value : String) : Except Page Options :=
  if (o.value? flag).isSome || !flag.accepts value then .error .usage
  else .ok { o with values := (flag, value) :: o.values }

/-- Adds a word that is not an option: the program, once. -/
def addWord (o : Options) (verb : Verb) (word : String) : Except Page Options :=
  if verb.takesProgram && o.program.isNone && word != "" then .ok { o with program := some word }
  else .error .usage

/-- Adds words of which none is an option. -/
def addWords (o : Options) (verb : Verb) : List String → Except Page Options
  | [] => .ok o
  | word :: words => do
    let o ← o.addWord verb word
    o.addWords verb words

def addArguments (o : Options) (verb : Verb) : List String → Except Page Options
  | [] => .ok o
  | argument :: rest =>
    match Argument.ofString argument with
    | .separator => o.addWords verb rest
    | .word => do
      let o ← o.addWord verb argument
      o.addArguments verb rest
    | .short letters => .error (if letters.head? = some 'h' then .help else .usage)
    | .long name value =>
      if name = "help" then .error (if value.isNone then .help else .usage)
      else match verb.flag? name, value with
        | none, _ => .error .usage
        | some .json, some _ => .error .usage
        | some .json, none => do
          let o ← o.add .json ""
          o.addArguments verb rest
        | some flag, some value => do
          let o ← o.add flag value
          o.addArguments verb rest
        | some flag, none =>
          match rest with
          | [] => .error .usage
          | value :: rest =>
            if Argument.ofString value = .word then do
              let o ← o.add flag value
              o.addArguments verb rest
            else .error .usage

/-- The attempt that the options describe: it needs a program, and not two challenges. -/
def attempt (o : Options) : Except Page Attempt :=
  match o.program with
  | none => .error .usage
  | some program =>
    if (o.value? .challenge).isSome && (o.value? .challengeFile).isSome then .error .usage
    else
      .ok
        { program
          challengeId := o.value? .challenge
          challengeFile := o.value? .challengeFile }

def command (o : Options) : Verb → Except Page Command
  | .run => do
    let attempt ← o.attempt
    return .run attempt ((o.number? .intervalMs).getD 0) (o.number? .historyLimit)
      (o.value? .progress) ((o.number? .stepLimit).getD 100000)
  | .trace => do
    let attempt ← o.attempt
    return .trace attempt ((o.number? .stepLimit).getD 10000)
  | .validate => do
    let attempt ← o.attempt
    return .validate attempt (o.value? .progress) ((o.number? .stepLimit).getD 100000)
  | .challenges => .ok (.challenges (o.value? .json).isSome (o.value? .progress))

end Options

/-- The page of the help command: help on everything, on a command, or on help. -/
def helpPage : List String → Page
  | [] => .help
  | [name] => if (Verb.ofName? name).isSome || name == "help" then .help else .usage
  | _ => .usage

/-- Reads a command line. -/
def ofArguments : List String → Except Page Command
  | [] => .error .usage
  | name :: rest =>
    match Verb.ofName? name with
    | some verb => do
      let o ← Options.addArguments {} verb rest
      o.command verb
    | none =>
      if name = "help" then .error (helpPage rest)
      else match Argument.ofString name with
        | .long "help" none => .error .help
        | .short ('h' :: _) => .error .help
        | _ => .error .usage

end Command

end SeatMachine
