import Monkey.Session

/-!
# Completion

The word before a place in a line is the longest run of letters and underscores that ends there. It
is completed to every reserved word, built-in function and visible name that it is a proper start
of.
-/

namespace Monkey

/-- Whether a character may stand in a name. -/
def isNameChar (c : Char) : Bool :=
  c = '_' || ('a' ≤ c && c ≤ 'z') || ('A' ≤ c && c ≤ 'Z')

/-- The word that ends at a place in a line. -/
def wordBefore (line : List Char) (place : Nat) : List Char :=
  ((line.take place).reverse.takeWhile isNameChar).reverse

/-- Every word that can be completed to, in bytewise order. -/
def candidates (names : List Text) : List Text :=
  Text.sortNames (keywords.map Prod.fst ++ Builtin.all.map Builtin.name ++ names)

/-- What can follow the word before a place: the ends of the candidates, and the length of the
word. -/
def complete (names : List Text) (line : List Char) (place : Nat) : List Text × Nat :=
  let word := wordBefore line place
  if word.isEmpty then ([], 0)
  else
    let start := word.flatMap String.utf8EncodeChar
    let ends := (candidates names).filterMap fun name =>
      if name = start then none else Text.afterStart? start name
    (ends.map Text.repair, word.length)

/-- What can follow the word before a place in a session. -/
def Session.complete (s : Session) (line : List Char) (place : Nat) : List Text × Nat :=
  Monkey.complete s.names line place

end Monkey
