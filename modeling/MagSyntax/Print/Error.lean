import MagSyntax.Text.Quoted

/-!
Why a tree cannot be printed as source.
-/

namespace MagSyntax

inductive PrintError
  /-- A binary operator that the language lacks. -/
  | unknownOperator (operator : Text)
  | unsupportedBase (base : Int)
  | mutableConstant
  | noStatement (type : Text)
  | noExpression (type : Text)
  | noFieldName (type : Text)
  | noBlock (type : Text)
  /-- A branch of an `if` that has no line, which only a program without statements can be. -/
  | emptyBranch
deriving DecidableEq

namespace PrintError

/-- The reason in words; an unknown operator is named alone. -/
def message : PrintError → Text
  | .unknownOperator operator => operator.quoted
  | .unsupportedBase base => "Unsupported numeric base " ++ Text.ofInt base
  | .mutableConstant => "'const' declarations cannot be 'mut'"
  | .noStatement type => "No emitter method for node type '" ++ type ++ "'"
  | .noExpression type => "No expression emitter for node type '" ++ type ++ "'"
  | .noFieldName type => "No field name in node type '" ++ type ++ "'"
  | .noBlock type => "No block in node type '" ++ type ++ "'"
  | .emptyBranch => "No line in a branch"

end PrintError

end MagSyntax
