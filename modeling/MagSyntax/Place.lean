import MagSyntax.Text.CodePoint

/-!
Places in a source: how many code points stand before, the line, and the column on that line. Lines
end at line feeds only; lines and columns are counted from 1.
-/

namespace MagSyntax

structure Place where
  position : Int
  line : Int
  column : Int
deriving DecidableEq

namespace Place

def start : Place := ⟨0, 1, 1⟩

def after (p : Place) (c : CodePoint) : Place :=
  if c = '\n' then ⟨p.position + 1, p.line + 1, 1⟩ else ⟨p.position + 1, p.line, p.column + 1⟩

def afterText (p : Place) (t : Text) : Place := t.foldl after p

theorem afterText_append (p : Place) (s t : Text) :
    p.afterText (s ++ t) = (p.afterText s).afterText t := by
  simp [afterText, List.foldl_append]

theorem position_after (p : Place) (c : CodePoint) : (p.after c).position = p.position + 1 := by
  unfold after
  split <;> rfl

theorem position_afterText (p : Place) (t : Text) :
    (p.afterText t).position = p.position + t.length := by
  induction t generalizing p with
  | nil => simp [afterText]
  | cons c t ih =>
    have h : p.afterText (c :: t) = (p.after c).afterText t := rfl
    rw [h, ih, position_after, List.length_cons]
    omega

end Place

end MagSyntax
