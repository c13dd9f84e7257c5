import MagSyntax.Text.CodePoint

/-!
Trivia: the blanks and comments between tokens. A line comment ends before a line feed, a block comment
at the first closing mark, and block comments do not nest.
-/

namespace MagSyntax.Trivia

/-- The blanks that separate tokens: space, tab, carriage return and line feed. -/
def isSeparator (c : CodePoint) : Bool := c = ' ' || c = '\t' || c = '\r' || c = '\n'

inductive Region
  | between
  | lineComment
  | opening (start : Nat)
  | blockComment (start : Nat)
  | closing
deriving DecidableEq

structure Extent where
  length : Nat
  /-- Where a block comment starts that nothing closes; it reaches to the end of the source. -/
  unclosed? : Option Nat
deriving DecidableEq

/-- The end of the trivia, from a region that `offset` code points lie before. -/
def extentFrom : Region → Nat → Text → Extent
  | .opening start, offset, [] => ⟨offset, some start⟩
  | .blockComment start, offset, [] => ⟨offset, some start⟩
  | _, offset, [] => ⟨offset, none⟩
  | .between, offset, c :: rest =>
    if isSeparator c then extentFrom .between (offset + 1) rest
    else if c = '/' && rest.head? = some '/' then extentFrom .lineComment (offset + 1) rest
    else if c = '/' && rest.head? = some '*' then extentFrom (.opening offset) (offset + 1) rest
    else ⟨offset, none⟩
  | .lineComment, offset, c :: rest =>
    extentFrom (if c = '\n' then .between else .lineComment) (offset + 1) rest
  | .opening start, offset, _ :: rest => extentFrom (.blockComment start) (offset + 1) rest
  | .blockComment start, offset, c :: rest =>
    if c = '*' && rest.head? = some '/' then extentFrom .closing (offset + 1) rest
    else extentFrom (.blockComment start) (offset + 1) rest
  | .closing, offset, _ :: rest => extentFrom .between (offset + 1) rest

def extent (ahead : Text) : Extent := extentFrom .between 0 ahead

end MagSyntax.Trivia
