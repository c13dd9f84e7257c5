import MagSyntax.Command.Word
import MagSyntax.Grammar.Run
import MagSyntax.Output

/-!
The options that the words of the command line set, in order; of two values for one option the later
holds. A name that fits several options is refused before anything is set. A word that cannot be read, a
missing value and a wrong one are refused where they stand, and an operand too many, an unknown option
or a missing source at the end, so a request for help may come before any of these.
-/

namespace MagSyntax.Command

/-- What the command is asked to do. An option with a value has none if the mark stood as its value. -/
structure Options where
  source : Text
  inPlace : Bool
  target : Option Target
  entry : Entry
  locations : Bool
  indent : Option Int
  out : Option Text
deriving DecidableEq

inductive Refusal
  | help
  | usage
deriving DecidableEq

namespace Options

def initial : Options := ⟨[], false, some .estree, .program, false, some 2, none⟩

def setFlag (o : Options) : Switch → Except Refusal Options
  | .string => .ok { o with inPlace := true }
  | .expression => .ok { o with entry := .expression }
  | .locations => .ok { o with locations := true }
  | .help => .error .help
  | _ => .error .usage

def clearValue (o : Options) : Switch → Except Refusal Options
  | .target => .ok { o with target := none }
  | .indent => .ok { o with indent := none }
  | .out => .ok { o with out := none }
  | _ => .error .usage

def setValue (o : Options) (switch : Switch) (value : Text) : Except Refusal Options :=
  if value = Word.markText then o.clearValue switch
  else match switch with
    | .target =>
      match Target.ofName? value with
      | some target => .ok { o with target := some target }
      | none => .error .usage
    | .indent =>
      match Text.toInt? value with
      | some indent => .ok { o with indent := some indent }
      | none => .error .usage
    | .out => .ok { o with out := some value }
    | _ => .error .usage

def setAll (o : Options) (flags : List Switch) (switch : Switch) (value : Text) :
    Except Refusal Options := do
  (← flags.foldlM setFlag o).setValue switch value

/-- The options that words set, behind others. A source may be among those, and so may something out of
place: an unknown option or a second operand. The mark stands right before or right behind the
source. -/
def ofWords (o : Options) (hasSource misplaced : Bool) : List Word → Except Refusal Options
  | [] => if hasSource && !misplaced then .ok o else .error .usage
  | [.operand source, .mark] | [.mark, .operand source] =>
    if hasSource || misplaced then .error .usage else .ok { o with source }
  | .operand source :: rest =>
    if hasSource then ofWords o true true rest else ofWords { o with source } true misplaced rest
  | .switches flags none :: rest =>
    match flags.foldlM setFlag o with
    | .ok set => set.ofWords hasSource misplaced rest
    | .error refusal => .error refusal
  | .switches flags (some (switch, some value)) :: rest =>
    match o.setAll flags switch value with
    | .ok set => set.ofWords hasSource misplaced rest
    | .error refusal => .error refusal
  | .switches flags (some (switch, none)) :: .operand value :: rest =>
    match o.setAll flags switch value with
    | .ok set => set.ofWords hasSource misplaced rest
    | .error refusal => .error refusal
  | .unknown :: rest => ofWords o hasSource true rest
  | _ => .error .usage

/-- The options that arguments set. A name that fits several options is refused before all else. -/
def ofArguments (args : List Text) : Except Refusal Options :=
  let words := Word.ofArguments args
  if .ambiguous ∈ words then .error .usage else initial.ofWords false false words

end Options

end MagSyntax.Command
