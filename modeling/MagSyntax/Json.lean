import MagSyntax.Text.Quoted

/-!
JSON values and their text. Members stay in the order in which they are given. A text is on one line, or
every item has a line of its own, indented by a width for each level.
-/

namespace MagSyntax

/-- A JSON value whose numbers are integers. -/
inductive Json
  | null
  | bool (value : Bool)
  | int (value : Int)
  | string (value : Text)
  | list (items : List Json)
  | object (members : List (Text × Json))

namespace Json

inductive Layout
  | oneLine
  | lines (width : Nat)
deriving DecidableEq

namespace Layout

/-- The layout for a number of spaces per level; none at all means one line, and a negative number counts
as zero. -/
def ofIndent : Option Int → Layout
  | none => .oneLine
  | some n => .lines n.toNat

def lineBreak : Layout → Nat → Text
  | .oneLine, _ => []
  | .lines width, level => ('\n' : CodePoint) :: List.replicate (width * level) ' '

def separator (layout : Layout) (level : Nat) : Text :=
  match layout with
  | .oneLine => ", "
  | .lines _ => "," ++ layout.lineBreak level

def enclosed (layout : Layout) (level : Nat) (opening closing : CodePoint) (items : List Text) :
    Text :=
  if items.isEmpty then [opening, closing]
  else opening :: layout.lineBreak (level + 1) ++
    List.intercalate (layout.separator (level + 1)) items ++ layout.lineBreak level ++ [closing]

end Layout

def stringPoint (c : CodePoint) : Text :=
  if c = '"' then "\\\""
  else if c = '\\' then "\\\\"
  else if c = '\n' then "\\n"
  else if c = '\r' then "\\r"
  else if c = '\t' then "\\t"
  else if c = '\x08' then "\\b"
  else if c = '\x0c' then "\\f"
  else if c.val < 0x20 then "\\u" ++ Text.hexDigits 4 c.val
  else [c]

def stringText (value : Text) : Text := "\"" ++ value.flatMap stringPoint ++ "\""

mutual

def write (layout : Layout) (level : Nat) : Json → Text
  | .null => "null"
  | .bool value => if value then "true" else "false"
  | .int value => Text.ofInt value
  | .string value => stringText value
  | .list items => layout.enclosed level '[' ']' (writeItems layout (level + 1) items)
  | .object members =>
    layout.enclosed level '\x7b' '\x7d' (writeMembers layout (level + 1) members)

def writeItems (layout : Layout) (level : Nat) : List Json → List Text
  | [] => []
  | item :: rest => item.write layout level :: writeItems layout level rest

def writeMembers (layout : Layout) (level : Nat) : List (Text × Json) → List Text
  | [] => []
  | (key, value) :: rest =>
    (stringText key ++ ": " ++ value.write layout level) :: writeMembers layout level rest

end

def render (layout : Layout) (value : Json) : Text := value.write layout 0

end Json

end MagSyntax
