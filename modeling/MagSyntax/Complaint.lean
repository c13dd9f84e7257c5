import MagSyntax.Text.Quoted
import MagSyntax.Token.Kind

/-!
What a rule of the grammar misses at the token it stands on.
-/

namespace MagSyntax

inductive Complaint
  | statementEnd
  | declarationEnd
  | bareAssignment
  | blockStart
  | blockEnd
  | conditionStart
  | conditionEnd
  | blockAfterCondition
  | thenAfterCondition
  | elseAfterBranch
  | mutableConstant
  | bindingTarget
  | assignmentTarget (type : Text)
  | chainedComparison
  | fieldName
  | indexEnd
  | groupEnd
  /-- A list goes on with a comma or ends with this bracket. -/
  | listEnd (close : Symbol)
  | expression
  | inputEnd
  | tooDeep
  | oneOf (kinds : List TokenKind)
  /-- A complaint in the words of the caller. -/
  | stated (words : Text)
deriving DecidableEq

namespace Complaint

def message : Complaint → Text
  | .statementEnd => "Expected ';' after expression"
  | .declarationEnd => "Expected ';'"
  | .bareAssignment => "Assignment used as a statement must be parenthesized"
  | .blockStart => "Expected '\x7b'"
  | .blockEnd => "Expected '\x7d' to close block"
  | .conditionStart => "Expected '(' after 'if'"
  | .conditionEnd => "Expected ')' after condition"
  | .blockAfterCondition => "Expected '\x7b' after unparenthesized 'if' condition"
  | .thenAfterCondition => "Expected 'then' after condition"
  | .elseAfterBranch => "Expected 'else': an if-expression needs both branches"
  | .mutableConstant => "'const' declarations cannot be 'mut'"
  | .bindingTarget => "Expected identifier or array pattern"
  | .assignmentTarget type => "Invalid assignment target " ++ type
  | .chainedComparison => "Comparison operators cannot be chained; parenthesize one side"
  | .fieldName => "Expected field name after '.'"
  | .indexEnd => "Expected ']' after index"
  | .groupEnd => "Expected ')'"
  | .listEnd close => "Expected ',' or '" ++ close.spelling ++ "'"
  | .expression => "Expected expression"
  | .inputEnd => "Expected end of input"
  | .tooDeep => "Too many nested expressions"
  | .oneOf kinds => "Expected " ++ List.intercalate " or " (kinds.map TokenKind.name)
  | .stated words => words

end Complaint

end MagSyntax
