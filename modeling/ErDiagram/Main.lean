import ErDiagram.Cli.Outcome

/-!
The command line program.
-/

namespace ErDiagram.Cli

/-- The operating system's number for a failed reading. Some come negated. -/
def systemNumber (error : IO.Error) : Nat :=
  let code : UInt32 :=
    match error with
    | .alreadyExists _ code _ => code
    | .otherError code _ => code
    | .resourceBusy code _ => code
    | .resourceVanished code _ => code
    | .unsupportedOperation code _ => code
    | .hardwareFault code _ => code
    | .unsatisfiedConstraints code _ => code
    | .illegalOperation code _ => code
    | .protocolError code _ => code
    | .timeExpired code _ => code
    | .interrupted _ code _ => code
    | .noFileOrDirectory _ code _ => code
    | .invalidArgument _ code _ => code
    | .permissionDenied _ code _ => code
    | .resourceExhausted _ code _ => code
    | .inappropriateType _ code _ => code
    | .noSuchThing _ code _ => code
    | .unexpectedEof => 0
    | .userError _ => 0
  code.toInt32.toInt.natAbs

def readFile (path : String) : IO (Except ReadError String) := do
  try
    let bytes ← IO.FS.readBinFile path
    pure (decodeText bytes)
  catch error =>
    pure (.error (.system (systemNumber error)))

end ErDiagram.Cli

/-- Answers the arguments, and exits with the code of the answer. -/
def main (arguments : List String) : IO UInt32 := do
  let outcome ← ErDiagram.Cli.run ErDiagram.Cli.readFile arguments
  (← IO.getStdout).putStr outcome.stdout
  (← IO.getStderr).putStr outcome.stderr
  pure outcome.code
