import MagSyntax.Lexeme.Numeral

/-!
String literals. The opening quote is also the closing one, a literal stays on its line, and a backslash
starts an escape: a letter for a control character, two hexadecimal digits behind `x`, four or
any number in braces behind `u`; before any other code point it stands for that code point alone.
-/

namespace MagSyntax.StringLiteral

/-- The letters of the simple escapes and what they stand for. -/
def simpleEscapes : List (CodePoint × CodePoint) :=
  [('n', '\n'), ('t', '\t'), ('r', '\r'), ('b', '\x08'), ('f', '\x0c'), ('v', '\x0b'), ('0', '\x00')]

def hexValue (c : CodePoint) : Nat :=
  if c.val ≤ 0x39 then c.val - 0x30 else if c.val ≤ 0x46 then c.val - 0x37 else c.val - 0x57

def hexNumber (digits : Text) : Nat := digits.foldl (fun n c => 16 * n + hexValue c) 0

/-- The code point that hexadecimal digits name. -/
def decodeHex (digits : Text) : Except Fault CodePoint :=
  if digits.isEmpty || digits.any (· ∉ Numeral.hexDigits) then .error (.malformedEscape digits)
  else match CodePoint.ofNat? (hexNumber digits) with
    | some c => .ok c
    | none => .error .escapeTooLarge

def fixedEscape (width : Nat) (ahead : Text) : Reading CodePoint :=
  let digits := ahead.take width
  if digits.length = width then ⟨width, decodeHex digits⟩ else .failed digits.length .shortEscape

def bracedEscape (ahead : Text) : Reading CodePoint :=
  let digits := ahead.takeWhile fun (c : CodePoint) => c ≠ '\x7d' && c ≠ '\n'
  if ahead[digits.length]? = some '\x7d' then ⟨digits.length + 1, decodeHex digits⟩
  else .failed digits.length .openEscape

def escape : Text → Reading CodePoint
  | [] => .failed 0 .endOfSource
  | c :: rest =>
    match simpleEscapes.lookup c with
    | some value => .found 1 value
    | none =>
      if c = 'x' then (fixedEscape 2 rest).behind 1
      else if c = 'u' then
        if rest.head? = some '\x7b' then (bracedEscape (rest.drop 1)).behind 2
        else (fixedEscape 4 rest).behind 1
      else .found 1 c

/-- Reads the text up to the closing quote and that quote. The first `pending` code points belong to an
escape that has been read already. -/
def body (quote : CodePoint) : (pending : Nat) → Text → Reading Text
  | _, [] => .failed 0 .openString
  | pending + 1, _ :: rest => (body quote pending rest).behind 1
  | 0, c :: rest =>
    if c = quote then .found 1 []
    else if c = '\n' then .failed 0 .openString
    else if c = '\\' then
      if rest.isEmpty then .failed 1 .openString
      else match (escape rest).outcome with
        | .ok value => ((body quote (escape rest).taken rest).behind 1).map (value :: ·)
        | .error fault => .failed (1 + (escape rest).taken) fault
    else (body quote 0 rest).following [c]

/-- Reads a string literal, whatever its first code point is: that one closes it. -/
def read : Text → Reading Lexeme
  | [] => .failed 0 .endOfSource
  | quote :: rest => ((body quote 0 rest).behind 1).map fun value => ⟨.string, value, 10, []⟩

end MagSyntax.StringLiteral
