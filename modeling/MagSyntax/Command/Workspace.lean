import MagSyntax.Text.Quoted

/-!
The files that the command sees: their names and what they hold. A name is a path through folders, with
slashes between its steps. A folder is there if a file is in it, and a file can be written if its
folder is there.
-/

namespace MagSyntax

namespace Text

/-- The text with every line end a line feed: a carriage return is one, alone or before a line feed. -/
def unifyLineEnds : Text → Text
  | [] => []
  | c :: rest =>
    if c = '\r' then
      if rest.head? = some '\n' then unifyLineEnds rest else '\n' :: unifyLineEnds rest
    else c :: unifyLineEnds rest

def trimLineFeeds (t : Text) : Text := (t.reverse.dropWhile fun (c : CodePoint) => c = '\n').reverse

def betweenSlashes : Text → List Text
  | [] => [[]]
  | c :: rest =>
    if c = '/' then [] :: betweenSlashes rest
    else match betweenSlashes rest with
      | [] => [[c]]
      | first :: others => (c :: first) :: others

end Text

namespace Command

inductive FileFault
  | missing
  | folder
  /-- The path goes on behind a file. -/
  | noFolder
  | zeroInName
deriving DecidableEq

def FileFault.message (name : Text) : FileFault → Text
  | .missing => "[Errno 2] No such file or directory: " ++ name.quoted
  | .folder => "[Errno 21] Is a directory: " ++ name.quoted
  | .noFolder => "[Errno 20] Not a directory: " ++ name.quoted
  | .zeroInName => "embedded null byte"

/-- Paths of files from a common folder, and what the files hold. -/
structure Workspace where
  files : List (Text × Text)
deriving DecidableEq

namespace Workspace

def path (steps : List Text) : Text := List.intercalate "/" steps

def find? (w : Workspace) (path : Text) : Option Text := w.files.lookup path

def isFolder (w : Workspace) (steps : List Text) : Bool :=
  steps.isEmpty || w.files.any fun (other, _) => (path steps ++ "/").isPrefixOf other

def staysPut (step : Text) : Bool := step.isEmpty || step = Text.ofString "."

def leavesFolder (step : Text) : Bool := step = Text.ofString ".."

def locate (w : Workspace) (folder : List Text) : List Text → Except FileFault Text
  | [] => .error .folder
  | step :: rest =>
    let below := folder ++ [step]
    if staysPut step then w.locate folder rest
    else if leavesFolder step then
      if folder.isEmpty then .error .missing else w.locate folder.dropLast rest
    else if w.isFolder below then w.locate below rest
    else if rest.isEmpty then .ok (path below)
    else if rest.all List.isEmpty then .error .folder
    else if (w.find? (path below)).isSome then .error .noFolder
    else .error .missing

/-- The path of the file with a name. Names outside the common folder have none. -/
def resolve (w : Workspace) (name : Text) : Except FileFault Text :=
  if ('\x00' : CodePoint) ∈ name then .error .zeroInName
  else if name.head? = some '/' then .error .missing
  else w.locate [] name.betweenSlashes

def read (w : Workspace) (name : Text) : Except FileFault Text := do
  match w.find? (← w.resolve name) with
  | some content => return content
  | none => throw .missing

def write (w : Workspace) (name content : Text) : Except FileFault Workspace := do
  let path ← w.resolve name
  return ⟨w.files.filter (fun (other, _) => other ≠ path) ++ [(path, content)]⟩

/-- The files that another workspace lacks or that hold something else there. -/
def changesFrom (w earlier : Workspace) : List (Text × Text) :=
  w.files.filter fun (path, content) => earlier.find? path ≠ some content

end Workspace

end Command

end MagSyntax
