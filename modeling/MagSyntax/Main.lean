import MagSyntax.Command.Run

/-!
The command line: arguments and files of the system in, text and exit status out.
-/

open MagSyntax

/-- What a file of the system holds, if it can be read as UTF-8. -/
def readTextFile (name : Text) : IO (Except Command.FileFault Text) := do
  try
    let bytes ← IO.FS.readBinFile name.asString
    match String.fromUTF8? bytes with
    | some content => return .ok (Text.ofString content)
    | none => return .error .missing
  catch _ => return .error .missing

def reportProblem (problem : Command.Problem) : IO UInt32 := do
  match problem with
  | .refusal .help =>
    IO.println problem.message.asString
    return 0
  | _ =>
    IO.eprintln ("error: " ++ problem.message.asString)
    return UInt32.ofNat (problem.exitCode?.getD 1)

def putOut (o : Command.Options) (text : Text) : IO UInt32 := do
  match o.outFile? with
  | none =>
    IO.print (Command.Outcome.screen (.printed text)).asString
    return 0
  | some name =>
    try
      IO.FS.writeFile name.asString text.asString
      return 0
    catch _ => reportProblem (.file name .missing)

def main (args : List String) : IO UInt32 := do
  match Command.Options.ofArguments (args.map Text.ofString) with
  | .error refusal => reportProblem (.refusal refusal)
  | .ok o =>
    let content ← if o.inPlace then pure (.error .missing) else readTextFile o.source
    match o.result fun _ => content with
    | .error problem => reportProblem problem
    | .ok text => putOut o text
