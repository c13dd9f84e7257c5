import MagSyntax.Node.Basic

/-!
Assignment targets. An identifier is one, a field or an element of something that an identifier names at
its root, and an array of targets, which becomes a pattern.
-/

namespace MagSyntax.Node

/-- A chain of fields, elements and calls that starts at an identifier. -/
def isRooted : Node → Bool
  | .identifier .. => true
  | .field _ object _ => object.isRooted
  | .index _ object _ => object.isRooted
  | .call _ callee _ => callee.isRooted
  | _ => false

mutual

/-- The target that an expression is read as, or the first part that cannot be assigned to. -/
def asTarget : Node → Except Node Node
  | .identifier loc name => .ok (.identifier loc name)
  | .field loc object name =>
    if object.isRooted then .ok (.field loc object name) else .error (.field loc object name)
  | .index loc object i =>
    if object.isRooted then .ok (.index loc object i) else .error (.index loc object i)
  | .array loc elements =>
    match asTargets elements with
    | .ok targets => .ok (.arrayPattern loc targets)
    | .error part => .error part
  | other => .error other

def asTargets : List Node → Except Node (List Node)
  | [] => .ok []
  | n :: rest =>
    match n.asTarget with
    | .error part => .error part
    | .ok target =>
      match asTargets rest with
      | .error part => .error part
      | .ok targets => .ok (target :: targets)

end

end MagSyntax.Node
