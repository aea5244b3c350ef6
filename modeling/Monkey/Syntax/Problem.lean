import Monkey.Diagnostic
import Monkey.Token.Basic

/-!
# What can be wrong with a source

A source is wrong where another kind of token was needed, where no expression can start, or where an
integer does not fit in 64 bits with sign. Each problem names the token it was found at, and
`Problem.diagnostic` is its one wording.
-/

namespace Monkey

/-- Something wrong with a source, at a token. -/
inductive Problem where
  | expected (wanted : Kind) (found : Token)
  | noOperand (found : Token)
  | badInteger (found : Token)
  deriving DecidableEq, Repr, Inhabited

namespace Problem

/-- The token at which a problem was found. -/
def token : Problem → Token
  | .expected _ t | .noOperand t | .badInteger t => t

/-- The stable code of a problem. -/
def code : Problem → Text
  | .expected _ _ => text "E2001"
  | .noOperand _ => text "E2002"
  | .badInteger _ => text "E2003"

/-- The wording of a problem. -/
def message : Problem → Text
  | .expected wanted found =>
    text "expected next token to be " ++ wanted.name ++ text ", got " ++ found.kind.name
      ++ text " instead"
  | .noOperand found => text "no prefix parse function for " ++ found.kind.name ++ text " found"
  | .badInteger found => text "could not parse " ++ found.literal ++ text " as integer"

/-- A hint where no expression can start because a character is not of the language. -/
def hint : Problem → Text
  | .noOperand found =>
    if found.kind = .illegal then text "unexpected character " ++ found.literal.quoted else []
  | _ => []

/-- The report on a problem. -/
def diagnostic (p : Problem) : Diagnostic where
  code := p.code
  severity := .error
  message := p.message
  span := p.token.span
  hint := p.hint

end Problem

end Monkey
