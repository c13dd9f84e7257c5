import MagSyntax.Text.CodePoint

/-!
The kinds of tokens: the eight keywords, the symbols, the four classes of operands and the end of the
input. Every kind has a name of its own, and a name that is no kind of the language is a kind
apart, which no rule of the grammar mentions.
-/

namespace MagSyntax

inductive Keyword
  | ifWord | elseWord | thenWord | letWord | mutWord | constWord | trueWord | falseWord
deriving DecidableEq

namespace Keyword

def all : List Keyword :=
  [.ifWord, .elseWord, .thenWord, .letWord, .mutWord, .constWord, .trueWord, .falseWord]

def spelling : Keyword → Text
  | .ifWord => "if"
  | .elseWord => "else"
  | .thenWord => "then"
  | .letWord => "let"
  | .mutWord => "mut"
  | .constWord => "const"
  | .trueWord => "true"
  | .falseWord => "false"

def name : Keyword → Text
  | .ifWord => "IF"
  | .elseWord => "ELSE"
  | .thenWord => "THEN"
  | .letWord => "LET"
  | .mutWord => "MUT"
  | .constWord => "CONST"
  | .trueWord => "TRUE"
  | .falseWord => "FALSE"

def ofSpelling? (word : Text) : Option Keyword := all.find? (·.spelling = word)

end Keyword

inductive Symbol
  | strictEq | strictNe | eq | ne | le | ge | pow | lt | gt | plus | sub | mult | div | mod | assign
  | lparen | rparen | lbrack | rbrack | lbrace | rbrace | comma | semi | colon | dot
deriving DecidableEq

namespace Symbol

/-- All symbols, a longer one before a shorter. -/
def all : List Symbol :=
  [.strictEq, .strictNe, .eq, .ne, .le, .ge, .pow, .lt, .gt, .plus, .sub, .mult, .div, .mod,
   .assign, .lparen, .rparen, .lbrack, .rbrack, .lbrace, .rbrace, .comma, .semi, .colon, .dot]

def spelling : Symbol → Text
  | .strictEq => "==="
  | .strictNe => "!=="
  | .eq => "=="
  | .ne => "!="
  | .le => "<="
  | .ge => ">="
  | .pow => "**"
  | .lt => "<"
  | .gt => ">"
  | .plus => "+"
  | .sub => "-"
  | .mult => "*"
  | .div => "/"
  | .mod => "%"
  | .assign => "="
  | .lparen => "("
  | .rparen => ")"
  | .lbrack => "["
  | .rbrack => "]"
  | .lbrace => "\x7b"
  | .rbrace => "\x7d"
  | .comma => ","
  | .semi => ";"
  | .colon => ":"
  | .dot => "."

def name : Symbol → Text
  | .strictEq => "STRICT_EQ"
  | .strictNe => "STRICT_NE"
  | .eq => "EQ"
  | .ne => "NE"
  | .le => "LE"
  | .ge => "GE"
  | .pow => "POW"
  | .lt => "LT"
  | .gt => "GT"
  | .plus => "PLUS"
  | .sub => "SUB"
  | .mult => "MULT"
  | .div => "DIV"
  | .mod => "MOD"
  | .assign => "ASSIGN"
  | .lparen => "LPAREN"
  | .rparen => "RPAREN"
  | .lbrack => "LBRACK"
  | .rbrack => "RBRACK"
  | .lbrace => "LBRACE"
  | .rbrace => "RBRACE"
  | .comma => "COMMA"
  | .semi => "SEMI"
  | .colon => "COLON"
  | .dot => "DOT"

def longest? (text : Text) : Option Symbol := all.find? (·.spelling.isPrefixOf text)

end Symbol

inductive TokenKind
  | keyword (word : Keyword)
  | symbol (sign : Symbol)
  | ident
  | number
  | string
  | regex
  | eof
  | other (label : Text)
deriving DecidableEq

namespace TokenKind

instance : Coe Keyword TokenKind := ⟨keyword⟩
instance : Coe Symbol TokenKind := ⟨symbol⟩

def name : TokenKind → Text
  | .keyword w => w.name
  | .symbol s => s.name
  | .ident => "IDENT"
  | .number => "NUMBER"
  | .string => "STRING"
  | .regex => "REGEX"
  | .eof => "EOF"
  | .other n => n

def all : List TokenKind :=
  Keyword.all.map keyword ++ Symbol.all.map symbol ++ [.ident, .number, .string, .regex, .eof]

def ofName (name : Text) : TokenKind :=
  (all.find? (·.name = name)).getD (.other name)

theorem name_ofName (name : Text) : (ofName name).name = name := by
  unfold ofName
  cases h : all.find? (·.name = name) with
  | none => rfl
  | some kind => simpa using List.find?_some h

end TokenKind

end MagSyntax
