/-!
The arguments of the command line: one file, the format of the output and whether to be quiet.
Arguments are looked at from left to right; the first that is out of place decides, and so does a
request for help or for the version.
-/

namespace ErDiagram.Cli

/-- The formats of the output. -/
inductive Format where
  | text
  | json
  deriving DecidableEq

def Format.ofName? (name : String) : Option Format :=
  if name = "text" then some .text else if name = "json" then some .json else none

/-- What to compile, and how to answer. -/
structure Options where
  file : String
  format : Format
  quiet : Bool
  deriving DecidableEq

inductive Request where
  | compile (options : Options)
  | help
  | version
  deriving DecidableEq

/-- What is wrong with the arguments. -/
inductive UsageError where
  | unexpected (argument : String)
  | unneededValue (option : String)
  | missingValue (option : String)
  | invalidFormat (name : String)
  | repeated (option : String)
  | missingFile
  deriving DecidableEq

def UsageError.message : UsageError → String
  | .unexpected argument => "unexpected argument '" ++ argument ++ "' found"
  | .unneededValue option => "unexpected value for '" ++ option ++ "' found; no more were expected"
  | .missingValue option => "a value is required for '" ++ option ++ "' but none was supplied"
  | .invalidFormat name => "invalid value '" ++ name ++ "' for '--output <OUTPUT>'"
  | .repeated option => "the argument '" ++ option ++ "' cannot be used multiple times"
  | .missingFile => "the following required arguments were not provided: <FILE>"

/-- What the arguments looked at so far have set. -/
structure Settings where
  file : Option String
  format : Option Format
  quiet : Bool
  deriving DecidableEq

namespace Settings

def empty : Settings :=
  ⟨none, none, false⟩

def setFile (settings : Settings) (argument : String) : Except UsageError Settings :=
  match settings.file with
  | some _ => .error (.unexpected argument)
  | none =>
    if argument = "" then .error (.missingValue "<FILE>")
    else .ok { settings with file := some argument }

def setFormat (settings : Settings) (name : String) : Except UsageError Settings :=
  match Format.ofName? name, settings.format with
  | none, _ => .error (.invalidFormat name)
  | some _, some _ => .error (.repeated "--output")
  | some format, none => .ok { settings with format := some format }

def setQuiet (settings : Settings) : Except UsageError Settings :=
  if settings.quiet then .error (.repeated "--quiet") else .ok { settings with quiet := true }

/-- The request that complete settings make. The format is text unless one is set. -/
def request (settings : Settings) : Except UsageError Request :=
  match settings.file with
  | some file => .ok (.compile ⟨file, settings.format.getD .text, settings.quiet⟩)
  | none => .error .missingFile

end Settings

/-- How an argument is meant. -/
inductive Argument where
  /-- Two hyphens: no option follows. -/
  | separator
  /-- Two hyphens and a name, with a value if an equals sign follows. -/
  | long (name : String) (value : Option String)
  /-- A hyphen and letters, the first of which decides. -/
  | short (letter : Char)
  /-- Anything else, a lone hyphen among it. -/
  | plain
  deriving DecidableEq

/-- Tells how an argument is meant from how it is written. -/
def Argument.ofString (argument : String) : Argument :=
  match argument.toList with
  | ['-', '-'] => .separator
  | '-' :: '-' :: rest =>
    .long (String.ofList (rest.takeWhile (· ≠ '=')))
      (match rest.dropWhile (· ≠ '=') with
        | [] => none
        | _ :: value => some (String.ofList value))
  | '-' :: letter :: _ => .short letter
  | _ => .plain

def readPlain (settings : Settings) : List String → Except UsageError Request
  | [] => settings.request
  | argument :: arguments => do
    let settings ← settings.setFile argument
    readPlain settings arguments

mutual

def readArguments (settings : Settings) : List String → Except UsageError Request
  | [] => settings.request
  | argument :: arguments =>
    match Argument.ofString argument with
    | .separator => readPlain settings arguments
    | .long "help" none => .ok .help
    | .long "version" none => .ok .version
    | .long "quiet" none => do
      let settings ← settings.setQuiet
      readArguments settings arguments
    | .long "output" none => readFormat settings arguments
    | .long "output" (some name) => do
      let settings ← settings.setFormat name
      readArguments settings arguments
    | .long name (some _) =>
      if name = "help" ∨ name = "version" ∨ name = "quiet" then
        .error (.unneededValue ("--" ++ name))
      else .error (.unexpected argument)
    | .long _ none => .error (.unexpected argument)
    | .short 'h' => .ok .help
    | .short 'V' => .ok .version
    | .short _ => .error (.unexpected argument)
    | .plain => do
      let settings ← settings.setFile argument
      readArguments settings arguments

/-- Takes the value of the output option and goes on behind it. Nothing that looks like an option
is a value. -/
def readFormat (settings : Settings) : List String → Except UsageError Request
  | [] => .error (.missingValue "--output")
  | argument :: arguments =>
    match Argument.ofString argument with
    | .plain => do
      let settings ← settings.setFormat argument
      readArguments settings arguments
    | _ => .error (.missingValue "--output")

end

def parse (arguments : List String) : Except UsageError Request :=
  readArguments Settings.empty arguments

end ErDiagram.Cli
