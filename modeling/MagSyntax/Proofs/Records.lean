import MagSyntax.Node.Equality
import MagSyntax.Output
import MagSyntax.Proofs.JsonReader

/-! The records of trees. A record holds all that a tree consists of, and the places in it can be taken out, so trees
have one record without places exactly if they are alike. The same holds of the texts that records are put out as. -/

namespace MagSyntax

namespace Text

@[simp] theorem ofString_inj {s t : String} : ofString s = ofString t ↔ s = t := by
  refine ⟨fun h => ?_, congrArg ofString⟩
  exact String.toList_inj.mp (List.map_injective_iff.mpr (fun _ _ => CodePoint.ofChar_injective) h)

end Text

namespace Json

mutual

/-- The value with all members of a name taken out of its objects, at any depth. -/
def without (key : Text) : Json → Json
  | .list items => .list (itemsWithout key items)
  | .object members => .object (membersWithout key members)
  | value => value

/-- The items with all members of a name taken out. -/
def itemsWithout (key : Text) : List Json → List Json
  | [] => []
  | item :: rest => item.without key :: itemsWithout key rest

/-- The members that have another name, with all members of the name taken out of their values. -/
def membersWithout (key : Text) : List (Text × Json) → List (Text × Json)
  | [] => []
  | (name, value) :: rest =>
    if name = key then membersWithout key rest else (name, value.without key) :: membersWithout key rest

end

theorem membersWithout_append (key : Text) (l l' : List (Text × Json)) :
    membersWithout key (l ++ l') = membersWithout key l ++ membersWithout key l' := by
  induction l with
  | nil => rfl
  | cons m l ih =>
    cases m
    simp only [List.cons_append, membersWithout, ih]
    split <;> rfl

end Json

namespace Node

open Json

@[simp] theorem recordOf_without (type : Text) (loc : Loc) (members : List (Text × Json)) :
    (recordOf true type loc members).without "loc" = recordOf false type loc (membersWithout "loc" members) := by
  simp [recordOf, locMember, typeMember, without, membersWithout, membersWithout_append]

mutual

/-- With the places taken out of it, a record is the one that holds no places. -/
theorem toJson_without (n : Node) : (n.toJson true).without "loc" = n.toJson false := by
  cases n with
  | program _ body | block _ body => simp [toJson, membersWithout, without, allToJson_without body]
  | expressionStatement _ e | parenthesized _ e => simp [toJson, membersWithout, toJson_without e]
  | conditionalStatement _ c t e =>
    simp [toJson, membersWithout, toJson_without c, toJson_without t, toJson?_without e]
  | declaration _ l a r =>
    simp [toJson, membersWithout, without, toJson_without l, toJson?_without a, toJson?_without r]
  | conditional _ c t e =>
    simp [toJson, membersWithout, without, toJson_without c, toJson_without t, toJson_without e]
  | assignment _ l r | binary _ _ l r =>
    simp [toJson, membersWithout, without, toJson_without l, toJson_without r]
  | unary _ _ a => simp [toJson, membersWithout, without, toJson_without a]
  | field _ o i | index _ o i => simp [toJson, membersWithout, toJson_without o, toJson_without i]
  | call _ f args => simp [toJson, membersWithout, without, toJson_without f, allToJson_without args]
  | array _ elements | arrayPattern _ elements =>
    simp [toJson, membersWithout, without, allToJson_without elements]
  | identifier | numeric | string | boolean | regex | bare => simp [toJson, membersWithout, without]

theorem allToJson_without (l : List Node) : itemsWithout "loc" (allToJson true l) = allToJson false l := by
  cases l with
  | nil => rfl
  | cons n rest => simp only [allToJson, itemsWithout, toJson_without n, allToJson_without rest]

theorem toJson?_without (n : Option Node) : (toJson? true n).without "loc" = toJson? false n := by
  cases n with
  | none => rfl
  | some n => exact toJson_without n

end

@[simp] theorem recordOf_inj {type type' : Text} {loc loc' : Loc} {members members' : List (Text × Json)} :
    recordOf false type loc members = recordOf false type' loc' members' ↔ type = type' ∧ members = members' := by
  simp [recordOf, locMember, typeMember]

/-- A missing tree has no record that a tree has. -/
theorem toJson_ne_null (locations : Bool) (n : Node) : n.toJson locations ≠ .null := by
  cases n <;> exact Json.noConfusion

mutual

/-- Trees are alike when they have one record without places. -/
theorem alike_iff_toJson (a b : Node) : a.alike b ↔ a.toJson false = b.toJson false := by
  cases a with
  | program _ body => cases b <;> simp [alike, toJson, allAlike_iff_toJson body]
  | block _ body => cases b <;> simp [alike, toJson, allAlike_iff_toJson body]
  | expressionStatement _ e => cases b <;> simp [alike, toJson, alike_iff_toJson e]
  | conditionalStatement _ c t e =>
    cases b <;>
      simp [alike, toJson, alike_iff_toJson c, alike_iff_toJson t, bothAlike_iff_toJson e, and_assoc]
  | declaration _ l a r =>
    cases b <;>
      simp [alike, toJson, alike_iff_toJson l, bothAlike_iff_toJson a, bothAlike_iff_toJson r, and_assoc]
  | parenthesized _ e => cases b <;> simp [alike, toJson, alike_iff_toJson e]
  | conditional _ c t e =>
    cases b <;> simp [alike, toJson, alike_iff_toJson c, alike_iff_toJson t, alike_iff_toJson e, and_assoc]
  | assignment _ l r => cases b <;> simp [alike, toJson, alike_iff_toJson l, alike_iff_toJson r, and_assoc]
  | binary _ _ l r => cases b <;> simp [alike, toJson, alike_iff_toJson l, alike_iff_toJson r, and_assoc]
  | unary _ _ a => cases b <;> simp [alike, toJson, alike_iff_toJson a, and_assoc]
  | field _ o i => cases b <;> simp [alike, toJson, alike_iff_toJson o, alike_iff_toJson i]
  | index _ o i => cases b <;> simp [alike, toJson, alike_iff_toJson o, alike_iff_toJson i]
  | call _ f args => cases b <;> simp [alike, toJson, alike_iff_toJson f, allAlike_iff_toJson args]
  | array _ elements => cases b <;> simp [alike, toJson, allAlike_iff_toJson elements]
  | arrayPattern _ elements => cases b <;> simp [alike, toJson, allAlike_iff_toJson elements]
  | identifier | numeric | string | boolean | regex | bare => cases b <;> simp [alike, toJson]

theorem allAlike_iff_toJson (a b : List Node) : allAlike a b ↔ allToJson false a = allToJson false b := by
  cases a with
  | nil => cases b <;> simp [allAlike, allToJson]
  | cons n rest => cases b <;> simp [allAlike, allToJson, alike_iff_toJson n, allAlike_iff_toJson rest]

theorem bothAlike_iff_toJson (a b : Option Node) : bothAlike a b ↔ toJson? false a = toJson? false b := by
  cases a with
  | none =>
    cases b with
    | none => simp [bothAlike]
    | some b => simp [bothAlike, toJson?, (toJson_ne_null false b).symm]
  | some a =>
    cases b with
    | none => simp [bothAlike, toJson?, toJson_ne_null false a]
    | some b => simp [bothAlike, toJson?, alike_iff_toJson a]

end

end Node

namespace Output

/-- The text that a tree is put out as determines it. In any layout, with places or without, it is read as the record
of the tree; the places can be taken out of the record; and without them trees have one record, and in one layout one
text, exactly if they are alike. -/
theorem records_determine_tree :
    (∀ (locations : Bool) (indent : Option Int) (last : Text) (n : Node), ∃ text : Text,
      (records locations (.ofIndent indent) last).write (some n) =
        (.ok text, records locations (.ofIndent indent) text) ∧
      Json.read? text = some (n.toJson locations)) ∧
    (∀ n : Node, (n.toJson true).without "loc" = n.toJson false) ∧
    (∀ n m : Node, n.alike m ↔ n.toJson false = m.toJson false) ∧
    ∀ (indent : Option Int) (last last' : Text) (n m : Node),
      ((records false (.ofIndent indent) last).write (some n)).1 =
        ((records false (.ofIndent indent) last').write (some m)).1 ↔ n.alike m := by
  refine ⟨fun locations indent last n => ?_, Node.toJson_without, Node.alike_iff_toJson,
    fun indent last last' n m => ?_⟩
  · exact ⟨_, rfl, Json.read?_render _ _⟩
  · rw [Node.alike_iff_toJson]
    refine ⟨fun h => ?_, fun h => ?_⟩
    · exact Json.render_injective _ (Except.ok.inj h)
    · rw [write, write, h]

end Output

end MagSyntax
