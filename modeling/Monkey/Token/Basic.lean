import Monkey.Source.Span
import Monkey.Text.Quoted

/-!
# Tokens

The kinds of token of the language, their names in messages, the reserved words, and the token
itself: its kind, its literal text and its span. A string token's literal is its content, without
the quotes; the end of the source has an empty literal.
-/

namespace Monkey

/-- The kinds of token, in the order of their numbers. -/
inductive Kind where
  | illegal | eof
  | ident | int | str
  | assign | plus | minus | bang | asterisk | slash
  | lt | gt | eq | notEq
  | comma | semicolon | colon | lparen | rparen | lbrace | rbrace | lbracket | rbracket
  | fnWord | letWord | trueWord | falseWord | ifWord | elseWord | returnWord
  deriving DecidableEq, Repr, Inhabited

namespace Kind

/-- Every kind, so that the kind with number `n` stands at place `n`. -/
def all : List Kind :=
  [.illegal, .eof, .ident, .int, .str, .assign, .plus, .minus, .bang, .asterisk, .slash,
    .lt, .gt, .eq, .notEq, .comma, .semicolon, .colon, .lparen, .rparen, .lbrace, .rbrace,
    .lbracket, .rbracket, .fnWord, .letWord, .trueWord, .falseWord, .ifWord, .elseWord,
    .returnWord]

/-- The number of a kind. -/
def number (k : Kind) : Nat :=
  k.ctorIdx

/-- The kind with a given number. -/
def ofNumber? (n : Int) : Option Kind :=
  if n < 0 then none else all[n.toNat]?

/-- The name of a kind in messages. -/
def name : Kind → Text
  | .illegal => text "ILLEGAL"
  | .eof => text "EOF"
  | .ident => text "IDENT"
  | .int => text "INT"
  | .str => text "STRING"
  | .assign => text "="
  | .plus => text "+"
  | .minus => text "-"
  | .bang => text "!"
  | .asterisk => text "*"
  | .slash => text "/"
  | .lt => text "<"
  | .gt => text ">"
  | .eq => text "=="
  | .notEq => text "!="
  | .comma => text ","
  | .semicolon => text ";"
  | .colon => text ":"
  | .lparen => text "("
  | .rparen => text ")"
  | .lbrace => text "\x7b"
  | .rbrace => text "\x7d"
  | .lbracket => text "["
  | .rbracket => text "]"
  | .fnWord => text "FUNCTION"
  | .letWord => text "LET"
  | .trueWord => text "TRUE"
  | .falseWord => text "FALSE"
  | .ifWord => text "IF"
  | .elseWord => text "ELSE"
  | .returnWord => text "RETURN"

/-- Whether a kind is a reserved word's. -/
def isKeyword : Kind → Bool
  | .fnWord | .letWord | .trueWord | .falseWord | .ifWord | .elseWord | .returnWord => true
  | _ => false

/-- Whether a kind has many literals: names, integers and strings. -/
def isLiteral : Kind → Bool
  | .ident | .int | .str => true
  | _ => false

/-- What is printed for a number that may or may not be a kind's. -/
def describeNumber (n : Int) : Text :=
  match ofNumber? n with
  | some k => k.name
  | none => text "Kind(" ++ Text.ofInt n ++ text ")"

end Kind

/-- The reserved words with their kinds. -/
def keywords : List (Text × Kind) :=
  [(text "fn", .fnWord), (text "let", .letWord), (text "true", .trueWord),
    (text "false", .falseWord), (text "if", .ifWord), (text "else", .elseWord),
    (text "return", .returnWord)]

/-- The kind of a word: its own if it is reserved, otherwise that of a name. -/
def Kind.ofWord (word : Text) : Kind :=
  (keywords.lookup word).getD .ident

/-- A token of a source. -/
structure Token where
  kind : Kind
  literal : Text
  span : Span
  deriving DecidableEq, Repr, Inhabited

/-- A token for people: its kind, its quoted literal, and where it starts. -/
def Token.describe (t : Token) : Text :=
  t.kind.name ++ text " " ++ t.literal.quoted ++ text " " ++ t.span.start.describe

end Monkey
