import Monkey.Text.Basic

/-!
# Colours

Results, errors, hints and the prompt are painted when the screen shows colours: a control sequence
before the text, and another that ends the colour after it.
-/

namespace Monkey

/-- What a text is, for its colour. -/
inductive Style where
  | result
  | error
  | hint
  | prompt
  deriving DecidableEq, Repr

/-- The number of a colour: cyan, red, grey and green. -/
def Style.number : Style → Nat
  | .result => 36
  | .error => 31
  | .hint => 90
  | .prompt => 32

/-- A text in its colour, if the screen shows colours. -/
def paint (colored : Bool) (style : Style) (t : Text) : Text :=
  if colored then text "\x1b[" ++ Text.ofNat style.number ++ text "m" ++ t ++ text "\x1b[0m"
  else t

end Monkey
