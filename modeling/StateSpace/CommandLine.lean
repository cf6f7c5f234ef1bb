import StateSpace.Dependency.Json
import StateSpace.Dependency.Report
import StateSpace.Json.Reader
import StateSpace.SelfTest

/-!
# Command line

Two commands: `selftest` tries a table out, and `deps` answers questions about a dependency input in a file.

Options come before or after operands. A long option is `--name`, with its value behind `=` or as the next argument;
short ones can share an argument, and the first that takes a value takes the rest of it, with or without `=`. A value in
an argument of its own does not look like an option, so it does not begin with a dash unless it is a single one. After
`--` only operands follow. No option is given twice.
-/

namespace StateSpace.CommandLine

inductive UsageError where
  | noCommand
  | unknownCommand (text : String)
  | unknownOption (text : String)
  | repeated (option : String)
  | missingValue (option : String)
  | unneededValue (option : String)
  | badValue (option text : String)
  | missingOperand (operand : String)
  | unexpectedOperand (text : String)
  /-- The first option is of no use without the second. -/
  | missingCompanion (option companion : String)
  deriving DecidableEq, Repr

def UsageError.message : UsageError → String
  | .noCommand => "a command is missing"
  | .unknownCommand text => s!"no such command: {text}"
  | .unknownOption text => s!"no such option: {text}"
  | .repeated option => s!"--{option} is given twice"
  | .missingValue option => s!"--{option} needs a value"
  | .unneededValue option => s!"--{option} takes no value"
  | .badValue option text => s!"bad value for {option}: {text}"
  | .missingOperand operand => s!"{operand} is missing"
  | .unexpectedOperand text => s!"unexpected argument: {text}"
  | .missingCompanion option companion => s!"--{option} needs --{companion}"

/-! ## Arguments -/

/-- An option of a command. -/
structure OptionSpec where
  name : String
  short : Option Char := none
  takesValue : Bool := false
  deriving DecidableEq, Repr

/-- One thing that arguments say. -/
inductive Item where
  | flag (option : String)
  | value (option text : String)
  | operand (text : String)
  deriving DecidableEq, Repr

/-- The items of one argument, and the option that takes the next argument as its value. -/
abbrev Reading := List Item × Option String

/-- The short options in one argument. -/
def readShort (options : List OptionSpec) : List Char → Except UsageError Reading
  | [] => .ok ([], none)
  | c :: rest =>
    match options.find? (·.short = some c) with
    | none => .error (.unknownOption s!"-{c}")
    | some o =>
      if o.takesValue then
        match rest with
        | [] => .ok ([], some o.name)
        | '=' :: text => .ok ([.value o.name (String.ofList text)], none)
        | text => .ok ([.value o.name (String.ofList text)], none)
      else (readShort options rest).map fun (items, open_) => (.flag o.name :: items, open_)

/-- A long option, without its two dashes. -/
def readLong (options : List OptionSpec) (text : List Char) : Except UsageError Reading :=
  let name := String.ofList (text.takeWhile (· ≠ '='))
  match options.find? (·.name = name) with
  | none => .error (.unknownOption s!"--{name}")
  | some o =>
    match o.takesValue, text.dropWhile (· ≠ '=') with
    | false, [] => .ok ([.flag name], none)
    | false, _ => .error (.unneededValue name)
    | true, [] => .ok ([], some name)
    | true, _ :: value => .ok ([.value name (String.ofList value)], none)

/-- The argument begins with a dash and goes on. -/
def looksLikeOption (arg : String) : Bool :=
  match arg.toList with
  | '-' :: _ :: _ => true
  | _ => false

def readArgument (options : List OptionSpec) (arg : String) : Except UsageError Reading :=
  match arg.toList with
  | '-' :: '-' :: text => readLong options text
  | '-' :: c :: text => readShort options (c :: text)
  | _ => .ok ([.operand arg], none)

/-- The items of all arguments of a command. -/
def readArguments (options : List OptionSpec) : List String → Except UsageError (List Item)
  | [] => .ok []
  | arg :: rest =>
    if arg = "--" then .ok (rest.map .operand)
    else
      match readArgument options arg with
      | .error e => .error e
      | .ok (items, none) => (readArguments options rest).map (items ++ ·)
      | .ok (items, some option) =>
        match rest with
        | [] => .error (.missingValue option)
        | value :: rest =>
          if looksLikeOption value then .error (.missingValue option)
          else (readArguments options rest).map (items ++ .value option value :: ·)

/-- Whether a flag is given. -/
def flag (items : List Item) (option : String) : Except UsageError Bool :=
  match items.count (.flag option) with
  | 0 => .ok false
  | 1 => .ok true
  | _ => .error (.repeated option)

/-- The value that is given to an option. -/
def value {α : Type} (items : List Item) (option : String) (read : String → Option α) :
    Except UsageError (Option α) :=
  let texts := items.filterMap fun
    | .value o text => if o = option then some text else none
    | _ => none
  match texts with
  | [] => .ok none
  | [text] =>
    match read text with
    | some a => .ok (some a)
    | none => .error (.badValue option text)
  | _ => .error (.repeated option)

def operands (items : List Item) : List String :=
  items.filterMap fun
    | .operand text => some text
    | _ => none

/-! ## Values -/

/-- A size: digits after an optional plus sign, within 64 bits. -/
def size? (text : String) : Option Nat :=
  match text.toList with
  | '+' :: digits => Text.digitsUpTo? (UInt64.size - 1) digits
  | digits => Text.digitsUpTo? (UInt64.size - 1) digits

/-- An exponent: digits after an optional sign, within 32 bits; a minus sign goes with zero only. -/
def exponent? (text : String) : Option Nat :=
  match text.toList with
  | '-' :: digits => Text.digitsUpTo? 0 digits
  | _ => (size? text).filter (· < UInt32.size)

/-- A single character. -/
def char? (text : String) : Option Char :=
  match text.toList with
  | [c] => some c
  | _ => none

/-! ## Commands -/

/-- What a command line asks for. -/
inductive Invocation where
  | version
  | selfTest (config : Table.Config) (keys : Option Nat) (rounds : Nat)
  | dependencies (file : String) (question : DependencyQuestion)
  deriving DecidableEq, Repr

def verboseOption : OptionSpec := { name := "verbose", short := some 'v' }

def selfTestOptions : List OptionSpec :=
  [verboseOption, { name := "initial", takesValue := true }, { name := "max", takesValue := true },
    { name := "keys", takesValue := true }, { name := "rounds", takesValue := true },
    { name := "slots", takesValue := true }]

def dependenciesOptions : List OptionSpec :=
  [verboseOption, { name := "listing" }, { name := "matrix", short := some 'm', takesValue := true },
    { name := "invert" }, { name := "index", takesValue := true }]

/-- `selftest`: without options, 500 rounds over as many keys of 10 words as fit, from capacity 4 to 1024. -/
def selfTest (args : List String) : Except UsageError Invocation := do
  let items ← readArguments selfTestOptions args
  discard (flag items "verbose")
  let initialPow2 ← value items "initial" exponent?
  let maxPow2 ← value items "max" exponent?
  let keys ← value items "keys" size?
  let rounds ← value items "rounds" size?
  let keyLength ← value items "slots" size?
  match operands items with
  | [] =>
    let config := { keyLength := keyLength.getD 10, initialPow2 := initialPow2.getD 2, maxPow2 := maxPow2.getD 10 }
    return .selfTest config keys (rounds.getD 500)
  | text :: _ => throw (.unexpectedOperand text)

/-- `deps`: the question about the input in a file; the direction and the index of a row go with a matrix only. -/
def dependencies (args : List String) : Except UsageError Invocation := do
  let items ← readArguments dependenciesOptions args
  discard (flag items "verbose")
  let listing ← flag items "listing"
  let matrix ← value items "matrix" char?
  let invert ← flag items "invert"
  let index ← value items "index" size?
  if matrix.isNone then
    if invert then throw (.missingCompanion "invert" "matrix")
    if index.isSome then throw (.missingCompanion "index" "matrix")
  match operands items with
  | [] => throw (.missingOperand "the input file")
  | [file] =>
    if file.isEmpty then throw (.badValue "the input file" file)
    return .dependencies file { listing, matrix, invert, index }
  | _ :: text :: _ => throw (.unexpectedOperand text)

/-- The command of the given name. -/
def command (name : String) (args : List String) : Except UsageError Invocation :=
  if name = "selftest" then selfTest args
  else if name = "deps" then dependencies args
  else .error (.unknownCommand name)

/-- The short options before the command: whether verbosity is asked for so far, or `none` at a request for the
version. -/
def readLeadingShort (verbose : Bool) : List Char → Except UsageError (Option Bool)
  | [] => .ok (some verbose)
  | 'v' :: rest => if verbose then .error (.repeated "verbose") else readLeadingShort true rest
  | 'V' :: _ => .ok none
  | c :: _ => .error (.unknownOption s!"-{c}")

/-- Reads the options before the command and then the command. A request for the version is answered at once. -/
def parseFrom (verbose : Bool) : List String → Except UsageError Invocation
  | [] => .error .noCommand
  | arg :: rest =>
    if arg = "--version" then .ok .version
    else if arg = "--verbose" then
      if verbose then .error (.repeated "verbose") else parseFrom true rest
    else
      match arg.toList with
      | ['-', '-'] => .error .noCommand
      | '-' :: '-' :: _ => .error (.unknownOption arg)
      | '-' :: c :: text =>
        match readLeadingShort verbose (c :: text) with
        | .error e => .error e
        | .ok none => .ok .version
        | .ok (some verbose) => parseFrom verbose rest
      | _ => command arg rest

/-- What the arguments ask for. -/
def parse (args : List String) : Except UsageError Invocation := parseFrom false args

/-! ## Answers -/

def versionText : String := "krepis-reach 0.1.0\n"

namespace Invocation

/-- The file that must be read. -/
def file? : Invocation → Option String
  | .dependencies file _ => some file
  | _ => none

/-- What is printed, or what went wrong and why. `content` is the text of the file, if it could be read. -/
def run (content : Option String) : Invocation → Except (List String) String
  | .version => .ok versionText
  | .selfTest config keys rounds =>
    match SelfTest.run config keys rounds with
    | .ok summary => .ok (summary.text ++ "\n")
    | .error e => .error e.chain
  | .dependencies file question =>
    match content with
    | none => .error [s!"failed to read {file}"]
    | some text =>
      match (Json.parse? text).bind DependencyInput.ofJson? with
      | none => .error [s!"failed to parse {file}"]
      | some input => (input.report question).mapError DependencyFailure.chain

end Invocation

end StateSpace.CommandLine
