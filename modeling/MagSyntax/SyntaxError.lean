import MagSyntax.Complaint
import MagSyntax.Fault
import MagSyntax.Token.Basic

/-!
The errors of reading a source: a fault in a lexeme, or a complaint about a token. Both say where they
arose and what stands there.
-/

namespace MagSyntax

inductive Cause
  | lexical (fault : Fault)
  /-- The complaint, and the text of the token found instead, which the end of the input lacks. -/
  | grammatical (complaint : Complaint) (found : Option Text)
deriving DecidableEq

namespace Cause

def summary : Cause → Text
  | .lexical fault => fault.message
  | .grammatical complaint _ => complaint.message

def reason : Cause → Text
  | .lexical fault => fault.message
  | .grammatical complaint none => complaint.message ++ ", found end of input"
  | .grammatical complaint (some found) => complaint.message ++ ", found " ++ found.quoted

end Cause

structure SyntaxError where
  cause : Cause
  place : Place
  /-- What stands at fault: a token's text, or the code point at which a lexeme broke off. -/
  text : Option Text
deriving DecidableEq

namespace SyntaxError

def ofToken (complaint : Complaint) (token : Token) : SyntaxError where
  cause := .grammatical complaint (if token.kind = .eof then none else some token.value)
  place := token.place
  text := token.value

def message (e : SyntaxError) : Text :=
  e.cause.reason ++ " at line " ++ Text.ofInt e.place.line ++ ", col " ++ Text.ofInt e.place.column

end SyntaxError

end MagSyntax
