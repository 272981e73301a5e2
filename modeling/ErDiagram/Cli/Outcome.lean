import ErDiagram.Cli.Arguments
import ErDiagram.Cli.FileTree
import ErDiagram.Compile
import ErDiagram.Encoding
import ErDiagram.Report

/-!
What the command line answers: an exit code and what is written to the two output streams. A file
that compiles is reported on standard output; whatever else happens is told on standard error.
-/

namespace ErDiagram.Cli

/-- An exit code, and the texts written to standard output and to standard error. -/
structure Outcome where
  code : UInt32
  stdout : String
  stderr : String
  deriving DecidableEq

namespace Outcome

def success (stdout : String) : Outcome :=
  ⟨0, stdout, ""⟩

def failure (stderr : String) : Outcome :=
  ⟨1, "", stderr⟩

/-- A failure that is one message. Being quiet does not silence it. -/
def ofMessage (format : Format) (message : String) : Outcome :=
  match format with
  | .text => failure (message ++ "\n")
  | .json => failure ((Json.object [("error", .string message)]).compact ++ "\n")

def ofGraph (format : Format) (graph : Graph) : Outcome :=
  match format with
  | .text => success (Report.render graph)
  | .json => success (graph.toJson.pretty ++ "\n")

/-- The answer to a rejected source text. Only the text format can be quiet about it. -/
def ofDiagnostics (format : Format) (quiet : Bool) (diagnostics : List Diagnostic) : Outcome :=
  match format with
  | .text =>
    if quiet then failure ""
    else failure (String.join (diagnostics.map fun diagnostic => diagnostic.display ++ "\n"))
  | .json => failure ((Json.array (diagnostics.map Diagnostic.toJson)).pretty ++ "\n")

/-- The answer to a file that has been read, or could not be. -/
def ofSource (options : Options) : Except ReadError String → Outcome
  | .error error =>
    ofMessage options.format ("error reading file '" ++ options.file ++ "': " ++ error.message)
  | .ok source =>
    match compile source with
    | .ok graph => ofGraph options.format graph
    | .error (.rejected diagnostics) => ofDiagnostics options.format options.quiet diagnostics
    | .error error => ofMessage options.format error.message

def usage : String :=
  "Usage: erlisp [OPTIONS] <FILE>\n"

def helpText : String :=
  "ER diagram DSL compiler\n\n" ++ usage ++
    "\nArguments:\n  <FILE>  Path to the ER source file\n" ++
    "\nOptions:\n" ++
    "      --output <OUTPUT>  Output format (text or json) [default: text]\n" ++
    "      --quiet            Suppress diagnostics in text mode\n" ++
    "  -h, --help             Print help\n" ++
    "  -V, --version          Print version\n"

def versionText : String :=
  "erlisp 0.1.0\n"

/-- The answer to arguments out of place. -/
def ofUsageError (error : UsageError) : Outcome :=
  failure ("error: " ++ error.message ++ "\n\n" ++ usage)

end Outcome

/-- The whole program, given a way to read files. -/
def run {m : Type → Type} [Monad m] (readText : String → m (Except ReadError String))
    (arguments : List String) : m Outcome :=
  match parse arguments with
  | .error error => pure (.ofUsageError error)
  | .ok .help => pure (.success Outcome.helpText)
  | .ok .version => pure (.success Outcome.versionText)
  | .ok (.compile options) => do
    let source ← readText options.file
    pure (.ofSource options source)

end ErDiagram.Cli
