import MagSyntax.Text.Decimal

/-!
The words of the command line. An option stands anywhere before the mark `--`, behind which every word is an
operand. A long option is known by any beginning of its name that fits no other. Letters share a
word: flags, and at the end one option that takes a value. The value stands in the rest of the word,
behind an equals sign after the name of the first option of the word, or in the next word. What looks
like a negative number or holds a space is an operand unless an option is meant by it.
-/

namespace MagSyntax.Command

inductive Switch
  | help
  | string
  | target
  | expression
  | locations
  | indent
  | out
deriving DecidableEq

namespace Switch

def names : List (Switch × Text × Option CodePoint) :=
  [(.help, "--help", some 'h'), (.string, "--string", some 's'), (.target, "--target", some 't'),
   (.expression, "--expression", some 'e'), (.locations, "--locations", none),
   (.indent, "--indent", none), (.out, "--out", some 'o')]

def takesValue : Switch → Bool
  | .target | .indent | .out => true
  | _ => false

def ofLetter? (letter : CodePoint) : Option Switch :=
  (names.find? fun (_, _, l) => l = some letter).map (·.1)

def ofName? (name : Text) : Option Switch := (names.find? fun (_, n, _) => n = name).map (·.1)

def startingWith (start : Text) : List Switch :=
  (names.filter fun (_, n, _) => start.isPrefixOf n).map (·.1)

end Switch

inductive Word
  | operand (text : Text)
  /-- Flags, and behind them an option that takes a value, with the value if the word holds it. -/
  | switches (flags : List Switch) (last : Option (Switch × Option Text))
  | mark
  | unknown
  /-- Several options have names that begin like this. -/
  | ambiguous
  | malformed
deriving DecidableEq

namespace Word

def markText : Text := "--"

/-- Letters behind flags. The first of an option that takes a value has the rest as its value. -/
def ofLetters (flags : List Switch) : Text → Word
  | [] => .switches flags none
  | letter :: rest =>
    match Switch.ofLetter? letter with
    | none => .malformed
    | some switch =>
      if switch.takesValue then
        .switches flags (some (switch, if rest.isEmpty then none else some rest))
      else ofLetters (flags ++ [switch]) rest

/-- A switch with what stands behind the equals sign after its letter. Behind a flag these are more
letters. -/
def ofLetterWith (switch : Switch) (value : Text) : Word :=
  if switch.takesValue then .switches [] (some (switch, some value))
  else if value.isEmpty then .malformed
  else ofLetters [switch] value

def ofLong (switch : Switch) (value : Option Text) : Word :=
  if switch.takesValue then .switches [] (some (switch, value))
  else if value.isSome then .malformed
  else .switches [switch] none

/-- A dash and digits, with or without a point that digits follow. -/
def isNegativeNumber : Text → Bool
  | [] => false
  | dash :: number =>
    let isDigit (c : CodePoint) : Bool := c.decimalValue?.isSome
    let digits := if number.getLast? = some '\n' then number.dropLast else number
    let whole := digits.takeWhile isDigit
    let rest := digits.drop whole.length
    dash = '-' &&
      ((rest.isEmpty && !whole.isEmpty) ||
        (rest.head? = some '.' && 1 < rest.length && rest.tail.all isDigit))

def unnamed (arg : Text) : Word :=
  if isNegativeNumber arg || (' ' : CodePoint) ∈ arg then .operand arg else .unknown

/-- What an argument is that starts with a dash and has more, but is not the mark. -/
def ofDashed (arg : Text) : Word :=
  let name := arg.takeWhile fun (c : CodePoint) => c ≠ '='
  let value := if name.length < arg.length then some (arg.drop (name.length + 1)) else none
  if markText <+: arg then
    match Switch.ofName? name, Switch.startingWith name with
    | some switch, _ => ofLong switch value
    | none, [switch] => ofLong switch value
    | none, [] => unnamed arg
    | none, _ => .ambiguous
  else match arg[1]?.bind Switch.ofLetter? with
    | none => unnamed arg
    | some switch =>
      match value with
      | some value => if name.length = 2 then ofLetterWith switch value else ofLetters [] arg.tail
      | none => ofLetters [] arg.tail

def ofArgument (arg : Text) : Word :=
  if arg.head? = some '-' && 1 < arg.length then ofDashed arg else .operand arg

def ofArguments : List Text → List Word
  | [] => []
  | arg :: rest =>
    if arg = markText then .mark :: rest.map .operand else ofArgument arg :: ofArguments rest

end Word

end MagSyntax.Command
