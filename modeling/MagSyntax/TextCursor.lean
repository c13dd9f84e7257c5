import MagSyntax.Place

/-!
A cursor in a source: the text behind it, the text ahead of it, and its place. Moving it on takes
code points from one side to the other, so the source itself never changes.
-/

namespace MagSyntax

/-- A source with a point in it. The text behind is kept nearest first. -/
structure TextCursor where
  behind : Text
  ahead : Text
  place : Place
deriving DecidableEq

namespace TextCursor

def start (source : Text) : TextCursor := ⟨[], source, .start⟩

/-- A cursor that stands behind `count` code points, or behind the whole source if there are fewer,
and counts from a given place. -/
def startAt (source : Text) (count : Nat) (place : Place) : TextCursor :=
  ⟨(source.take count).reverse, source.drop count, place⟩

def source (c : TextCursor) : Text := c.behind.reverse ++ c.ahead

def atEnd (c : TextCursor) : Bool := c.ahead.isEmpty

def next? (c : TextCursor) : Option (CodePoint × TextCursor) :=
  match c.ahead with
  | [] => none
  | p :: rest => some (p, ⟨p :: c.behind, rest, c.place.after p⟩)

/-- The code point at a distance from the cursor, backward if the distance is negative. -/
def peek (c : TextCursor) : Int → Option CodePoint
  | .ofNat n => c.ahead[n]?
  | .negSucc n =>
    let index := c.place.position - (n + 1 : Nat)
    if index < 0 then none else c.source[index.toNat]?

def advance (c : TextCursor) : Nat → TextCursor
  | 0 => c
  | count + 1 =>
    match c.next? with
    | none => c
    | some (_, later) => later.advance count

theorem advance_eq (c : TextCursor) (n : Nat) : c.advance n =
    ⟨(c.ahead.take n).reverse ++ c.behind, c.ahead.drop n, c.place.afterText (c.ahead.take n)⟩ := by
  induction n generalizing c with
  | zero => simp [advance, Place.afterText]
  | succ n ih =>
    rcases c with ⟨behind, ahead, place⟩
    cases ahead with
    | nil => simp [advance, next?, Place.afterText]
    | cons p rest => simp [advance, next?, ih, Place.afterText]

theorem ahead_advance (c : TextCursor) (n : Nat) : (c.advance n).ahead = c.ahead.drop n := by
  rw [advance_eq]

theorem source_advance (c : TextCursor) (n : Nat) : (c.advance n).source = c.source := by
  rw [advance_eq]
  simp [source]

end TextCursor

end MagSyntax
