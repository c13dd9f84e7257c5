import MagSyntax.Lexeme.Read
import MagSyntax.Lexeme.Trivia
import MagSyntax.SyntaxError
import MagSyntax.TextCursor
import MagSyntax.Token.SlashContext

/-!
Reading tokens one after the other. A reader is a cursor in the source together with what is known of
the tokens before it. A reading that fails leaves the cursor where the fault was noticed, while
the error names the place where the lexeme or the comment starts.
-/

namespace MagSyntax

namespace TextCursor

/-- The error of a fault in what starts at `start`, noticed at this cursor. -/
def error (c : TextCursor) (fault : Fault) (start : Place) : SyntaxError :=
  ⟨.lexical fault, start, c.ahead.head?.map fun p => [p]⟩

def next (c : TextCursor) : Except SyntaxError CodePoint × TextCursor :=
  match c.next? with
  | none => (.error (c.error .endOfSource c.place), c)
  | some (p, later) => (.ok p, later)

def readWith (read : Text → Reading Lexeme) (c : TextCursor) :
    Except SyntaxError Token × TextCursor :=
  let reading := read c.ahead
  let later := c.advance reading.taken
  match reading.outcome with
  | .ok lexeme => (.ok (.ofLexeme lexeme c.place), later)
  | .error fault => (.error (later.error fault c.place), later)

def skipTrivia (c : TextCursor) : Except SyntaxError Unit × TextCursor :=
  let extent := Trivia.extent c.ahead
  let later := c.advance extent.length
  match extent.unclosed? with
  | none => (.ok (), later)
  | some start => (.error (later.error .openComment (c.advance start).place), later)

def readSymbol? (c : TextCursor) : Option (Token × TextCursor) :=
  (Symbol.longest? c.ahead).map fun symbol =>
    (.ofLexeme (.ofSymbol symbol) c.place, c.advance symbol.spelling.length)

def readDigits (c : TextCursor) (digits : Text) : Text × TextCursor :=
  let run := Numeral.digitRun digits c.ahead
  (run, c.advance run.length)

def readToken (c : TextCursor) (regexAllowed : Bool) : Except SyntaxError Token × TextCursor :=
  match c.skipTrivia with
  | (.ok (), later) => later.readWith (Lexeme.read regexAllowed)
  | (.error e, later) => (.error e, later)

end TextCursor

structure TokenReader where
  cursor : TextCursor
  context : SlashContext
deriving DecidableEq

namespace TokenReader

def start (source : Text) : TokenReader := ⟨.start source, .start⟩

/-- Reads the next token. The context changes only if there is one. -/
def next (r : TokenReader) : Except SyntaxError Token × TokenReader :=
  match r.cursor.readToken r.context.regexAllowed with
  | (.ok token, later) => (.ok token, ⟨later, r.context.after token.kind⟩)
  | (.error e, later) => (.error e, ⟨later, r.context⟩)

/-- The tokens read so far, nearest first, followed by up to `count` more; the end of the input is the
last one. -/
def readAll : (count : Nat) → TokenReader → (sofar : List Token) → Except SyntaxError (List Token)
  | 0, _, sofar => .ok sofar.reverse
  | count + 1, r, sofar =>
    match r.next with
    | (.error e, _) => .error e
    | (.ok token, later) =>
      if token.kind = .eof then .ok (token :: sofar).reverse else readAll count later (token :: sofar)

end TokenReader

/-- The tokens of a source, closed by the end of the input. Each token but that one takes a code point,
so one more reading than there are code points is enough. -/
def tokenize (source : Text) : Except SyntaxError (List Token) :=
  TokenReader.readAll (source.length + 1) (.start source) []

end MagSyntax
