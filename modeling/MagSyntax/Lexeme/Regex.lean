import MagSyntax.Lexeme.Basic
import MagSyntax.Text.NamePart

/-!
Regular expression literals. The body ends at the first slash that is neither escaped nor in a class, it
stays on its line, and it is kept as written. The letters behind it are flags, each at most
once.
-/

namespace MagSyntax.Regex

def flagLetters : Text := "dgimsuvy"

def body : (inClass : Bool) → Text → Reading Text
  | _, [] => .failed 0 .openRegex
  | inClass, c :: rest =>
    if c = '\n' then .failed 0 .openRegex
    else if c = '/' && !inClass then .found 1 []
    else if c = '\\' then
      match rest with
      | [] => .failed 1 .openRegex
      | escaped :: later =>
        if escaped = '\n' then .failed 1 .openRegex
        else (body inClass later).following [c, escaped]
    else (body (c = '[' || (inClass && c ≠ ']')) rest).following [c]

/-- Reads the flags, of which `seen` have been read already. -/
def flags (seen : Text) : Text → Reading Text
  | [] => .found 0 []
  | c :: rest =>
    if c.continuesName then
      if c ∈ flagLetters && c ∉ seen then (flags (c :: seen) rest).following [c]
      else .failed 1 (.badFlag c)
    else .found 0 []

/-- Reads a regular expression literal; the first code point is taken to be its slash. -/
def read : Text → Reading Lexeme
  | [] => .failed 0 .endOfSource
  | _ :: rest =>
    let pattern := body false rest
    match pattern.outcome with
    | .error fault => .failed (1 + pattern.taken) fault
    | .ok value =>
      ((flags [] (rest.drop pattern.taken)).behind (1 + pattern.taken)).map fun letters =>
        ⟨.regex, value, 10, letters⟩

end MagSyntax.Regex
