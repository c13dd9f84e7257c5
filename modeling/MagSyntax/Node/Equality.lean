import MagSyntax.Node.Basic

/-!
Trees that are alike: the same but for the places of their nodes. The test agrees with erasing all
places and comparing what is left, so being alike is an equivalence.
-/

namespace MagSyntax.Node

mutual

/-- The trees agree in everything but places. -/
def alike : Node → Node → Bool
  | .program _ body, other =>
    match other with | .program _ body' => allAlike body body' | _ => false
  | .block _ body, other =>
    match other with | .block _ body' => allAlike body body' | _ => false
  | .expressionStatement _ e, other =>
    match other with | .expressionStatement _ e' => alike e e' | _ => false
  | .conditionalStatement _ c t e, other =>
    match other with
    | .conditionalStatement _ c' t' e' => alike c c' && alike t t' && bothAlike e e'
    | _ => false
  | .declaration _ l a r constant mutable, other =>
    match other with
    | .declaration _ l' a' r' constant' mutable' =>
      alike l l' && bothAlike a a' && bothAlike r r' && constant = constant' && mutable = mutable'
    | _ => false
  | .parenthesized _ e, other =>
    match other with | .parenthesized _ e' => alike e e' | _ => false
  | .conditional _ c t e explicitThen, other =>
    match other with
    | .conditional _ c' t' e' explicitThen' =>
      alike c c' && alike t t' && alike e e' && explicitThen = explicitThen'
    | _ => false
  | .assignment _ l r operator, other =>
    match other with
    | .assignment _ l' r' operator' => alike l l' && alike r r' && operator = operator'
    | _ => false
  | .binary _ operator l r, other =>
    match other with
    | .binary _ operator' l' r' => operator = operator' && alike l l' && alike r r'
    | _ => false
  | .unary _ operator a leading, other =>
    match other with
    | .unary _ operator' a' leading' => operator = operator' && alike a a' && leading = leading'
    | _ => false
  | .field _ o name, other =>
    match other with | .field _ o' name' => alike o o' && alike name name' | _ => false
  | .index _ o i, other =>
    match other with | .index _ o' i' => alike o o' && alike i i' | _ => false
  | .call _ f args, other =>
    match other with | .call _ f' args' => alike f f' && allAlike args args' | _ => false
  | .array _ elements, other =>
    match other with | .array _ elements' => allAlike elements elements' | _ => false
  | .arrayPattern _ elements, other =>
    match other with | .arrayPattern _ elements' => allAlike elements elements' | _ => false
  | .identifier _ name, other =>
    match other with | .identifier _ name' => name = name' | _ => false
  | .numeric _ digits base, other =>
    match other with | .numeric _ digits' base' => digits = digits' && base = base' | _ => false
  | .string _ value, other =>
    match other with | .string _ value' => value = value' | _ => false
  | .boolean _ value, other =>
    match other with | .boolean _ value' => value = value' | _ => false
  | .regex _ pattern flags, other =>
    match other with | .regex _ pattern' flags' => pattern = pattern' && flags = flags' | _ => false
  | .bare _, other =>
    match other with | .bare _ => true | _ => false

def allAlike : List Node → List Node → Bool
  | [], [] => true
  | n :: rest, n' :: rest' => alike n n' && allAlike rest rest'
  | _, _ => false

def bothAlike : Option Node → Option Node → Bool
  | none, none => true
  | some n, some n' => alike n n'
  | _, _ => false

end

mutual

def unplaced : Node → Node
  | .program _ body => .program .unknown (allUnplaced body)
  | .block _ body => .block .unknown (allUnplaced body)
  | .expressionStatement _ e => .expressionStatement .unknown e.unplaced
  | .conditionalStatement _ c t e =>
    .conditionalStatement .unknown c.unplaced t.unplaced (unplaced? e)
  | .declaration _ l a r constant mutable =>
    .declaration .unknown l.unplaced (unplaced? a) (unplaced? r) constant mutable
  | .parenthesized _ e => .parenthesized .unknown e.unplaced
  | .conditional _ c t e explicitThen =>
    .conditional .unknown c.unplaced t.unplaced e.unplaced explicitThen
  | .assignment _ l r operator => .assignment .unknown l.unplaced r.unplaced operator
  | .binary _ operator l r => .binary .unknown operator l.unplaced r.unplaced
  | .unary _ operator a leading => .unary .unknown operator a.unplaced leading
  | .field _ o name => .field .unknown o.unplaced name.unplaced
  | .index _ o i => .index .unknown o.unplaced i.unplaced
  | .call _ f args => .call .unknown f.unplaced (allUnplaced args)
  | .array _ elements => .array .unknown (allUnplaced elements)
  | .arrayPattern _ elements => .arrayPattern .unknown (allUnplaced elements)
  | .identifier _ name => .identifier .unknown name
  | .numeric _ digits base => .numeric .unknown digits base
  | .string _ value => .string .unknown value
  | .boolean _ value => .boolean .unknown value
  | .regex _ pattern flags => .regex .unknown pattern flags
  | .bare _ => .bare .unknown

def allUnplaced : List Node → List Node
  | [] => []
  | n :: rest => n.unplaced :: allUnplaced rest

def unplaced? : Option Node → Option Node
  | none => none
  | some n => some n.unplaced

end

theorem allUnplaced_eq_map (l : List Node) : allUnplaced l = l.map unplaced := by
  induction l with
  | nil => rfl
  | cons n rest ih => simp [allUnplaced, ih]

mutual

theorem alike_iff (a b : Node) : a.alike b = true ↔ a.unplaced = b.unplaced := by
  cases a with
  | program _ body => cases b <;> simp [alike, unplaced, allAlike_iff body]
  | block _ body => cases b <;> simp [alike, unplaced, allAlike_iff body]
  | expressionStatement _ e => cases b <;> simp [alike, unplaced, alike_iff e]
  | conditionalStatement _ c t e =>
    cases b <;> simp [alike, unplaced, alike_iff c, alike_iff t, bothAlike_iff e, and_assoc]
  | declaration _ l a r =>
    cases b <;> simp [alike, unplaced, alike_iff l, bothAlike_iff a, bothAlike_iff r, and_assoc]
  | parenthesized _ e => cases b <;> simp [alike, unplaced, alike_iff e]
  | conditional _ c t e =>
    cases b <;> simp [alike, unplaced, alike_iff c, alike_iff t, alike_iff e, and_assoc]
  | assignment _ l r => cases b <;> simp [alike, unplaced, alike_iff l, alike_iff r, and_assoc]
  | binary _ _ l r => cases b <;> simp [alike, unplaced, alike_iff l, alike_iff r, and_assoc]
  | unary _ _ a => cases b <;> simp [alike, unplaced, alike_iff a, and_assoc]
  | field _ o name => cases b <;> simp [alike, unplaced, alike_iff o, alike_iff name]
  | index _ o i => cases b <;> simp [alike, unplaced, alike_iff o, alike_iff i]
  | call _ f args => cases b <;> simp [alike, unplaced, alike_iff f, allAlike_iff args]
  | array _ elements => cases b <;> simp [alike, unplaced, allAlike_iff elements]
  | arrayPattern _ elements => cases b <;> simp [alike, unplaced, allAlike_iff elements]
  | identifier => cases b <;> simp [alike, unplaced]
  | numeric => cases b <;> simp [alike, unplaced]
  | string => cases b <;> simp [alike, unplaced]
  | boolean => cases b <;> simp [alike, unplaced]
  | regex => cases b <;> simp [alike, unplaced]
  | bare => cases b <;> simp [alike, unplaced]

theorem allAlike_iff (a b : List Node) : allAlike a b = true ↔ allUnplaced a = allUnplaced b := by
  cases a with
  | nil => cases b <;> simp [allAlike, allUnplaced]
  | cons first rest =>
    cases b <;> simp [allAlike, allUnplaced, alike_iff first, allAlike_iff rest]

theorem bothAlike_iff (a b : Option Node) : bothAlike a b = true ↔ unplaced? a = unplaced? b := by
  cases a with
  | none => cases b <;> simp [bothAlike, unplaced?]
  | some a => cases b <;> simp [bothAlike, unplaced?, alike_iff a]

end

end MagSyntax.Node
