import MagSyntax.Command.Options
import MagSyntax.Command.Workspace

/-!
Running the command: read a source, parse it, and put the tree out. A syntax error is reported before
anything is written.
-/

namespace MagSyntax.Command

inductive Problem
  | refusal (refusal : Refusal)
  | rejected (error : SyntaxError)
  | noIndent
  | noTarget
  | notMag
  | file (name : Text) (fault : FileFault)
  | unprintable (error : OutputError)
  /-- The output holds lone surrogates, which no file can. -/
  | unencodable
deriving DecidableEq

namespace Problem

def message : Problem → Text
  | .refusal _ => "usage: mag [options] source"
  | .rejected e => e.message
  | .noIndent => "'>=' not supported between instances of 'list' and 'int'"
  | .noTarget => "No output format"
  | .notMag => "Only .mag files are supported."
  | .file name fault => fault.message name
  | .unprintable e => e.message
  | .unencodable => "Surrogates cannot be written to a file"

def exitCode? : Problem → Option Nat
  | .refusal .help => some 0
  | .refusal .usage => some 2
  | .rejected _ => some 1
  | _ => none

end Problem

namespace Options

/-- The number of spaces per level of a JSON output; a negative number asks for one line. -/
def jsonIndent (o : Options) : Except Problem (Option Int) :=
  match o.indent with
  | none => .error .noIndent
  | some indent => .ok (if indent < 0 then none else some indent)

def readSource (o : Options) (readFile : Text → Except FileFault Text) : Except Problem Text :=
  if o.inPlace then .ok o.source
  else if !(Text.ofString ".mag").isSuffixOf o.source then .error .notMag
  else match readFile o.source with
    | .error fault => .error (.file o.source fault)
    | .ok content => .ok content.unifyLineEnds

def outputOf (o : Options) (indent : Option Int) (source : Text) : Except Problem Text :=
  match o.entry.ofSource source, o.target with
  | .error e, _ => .error (.rejected e)
  | .ok _, none => .error .noTarget
  | .ok tree, some target =>
    match ((Output.ofTarget target o.locations indent).write (some tree)).1 with
    | .error e => .error (.unprintable e)
    | .ok text => .ok text

def result (o : Options) (readFile : Text → Except FileFault Text) : Except Problem Text := do
  let indent ← o.jsonIndent
  o.outputOf indent (← o.readSource readFile)

def outFile? (o : Options) : Option Text := o.out.filter (!·.isEmpty)

end Options

inductive Outcome
  | printed (text : Text)
  | wrote
  | failed (problem : Problem)
deriving DecidableEq

namespace Outcome

/-- The exit status; a problem that the command does not report by itself has none. -/
def exitCode? : Outcome → Option Nat
  | .printed _ | .wrote => some 0
  | .failed problem => problem.exitCode?

def screen : Outcome → Text
  | .printed text => text.trimLineFeeds ++ "\n"
  | _ => []

def errorReport : Outcome → Text
  | .failed (.rejected e) => "error: " ++ e.message ++ "\n"
  | _ => []

end Outcome

/-- Writes an output to a file. One that cannot be written leaves the file empty. -/
def writeOut (w : Workspace) (name text : Text) : Outcome × Workspace :=
  let encodable := !text.any CodePoint.isSurrogate
  match w.write name (if encodable then text else []) with
  | .error fault => (.failed (.file name fault), w)
  | .ok later => (if encodable then .wrote else .failed .unencodable, later)

def run (args : List Text) (w : Workspace) : Outcome × Workspace :=
  match Options.ofArguments args with
  | .error refusal => (.failed (.refusal refusal), w)
  | .ok o =>
    match o.result w.read, o.outFile? with
    | .error problem, _ => (.failed problem, w)
    | .ok text, none => (.printed text, w)
    | .ok text, some name => writeOut w name text

end MagSyntax.Command
