import MagSyntax.Node.Record
import MagSyntax.Print.Sheet
import MagSyntax.Text.LowerCase

/-!
What a tree can be put out as: its record in JSON, or its source. The source of one tree is added to that
of the trees before it, while the record of a tree takes the place of the one before.
-/

namespace MagSyntax

inductive Target
  | estree
  | mag
deriving DecidableEq

namespace Target

/-- The names of the targets; two of them are for the same one. -/
def names : List (Text × Target) := [("estree", .estree), ("json", .estree), ("mag", .mag)]

def ofName? (name : Text) : Option Target := (names.find? (·.1 = name)).map (·.2)

end Target

inductive OutputError
  | unknownTarget (name : Text)
  | noTree
  | unprintable (error : PrintError)
deriving DecidableEq

namespace OutputError

def message : OutputError → Text
  | .unknownTarget name => "Unknown transpilation target: " ++ name.quoted
  | .noTree => "Transpiler input must be an ASTNode instance."
  | .unprintable e => e.message

end OutputError

inductive Output
  | records (locations : Bool) (layout : Json.Layout) (last : Text)
  | sources (sheet : Sheet)

namespace Output

def ofTarget (target : Target) (locations : Bool) (indent : Option Int) : Output :=
  match target with
  | .estree => .records locations (.ofIndent indent) []
  | .mag => .sources .empty

/-- An empty output for the target that a name in any case stands for. -/
def ofName (name : Text) (locations : Bool) (indent : Option Int) : Except OutputError Output :=
  match Target.ofName? name.lower with
  | some target => .ok (ofTarget target locations indent)
  | none => .error (.unknownTarget name.lower)

def text : Output → Text
  | .records _ _ last => last
  | .sources sheet => sheet.text

def write (o : Output) : Option Node → Except OutputError Text × Output
  | none => (.error .noTree, o)
  | some node =>
    match o with
    | .records locations layout _ =>
      let text := (node.toJson locations).render layout
      (.ok text, .records locations layout text)
    | .sources sheet =>
      match sheet.addTree node with
      | (.ok (), later) => (.ok later.text, .sources later)
      | (.error e, later) => (.error (.unprintable e), .sources later)

end Output

end MagSyntax
