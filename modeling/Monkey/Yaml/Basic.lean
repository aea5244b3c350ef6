import Monkey.Text.Utf8

/-!
# YAML: characters, places and problems

A document is read as characters, each at a place. What can be wrong with its form is a cause, named
together with a line; lines are named from the second on. The nodes of a document are scalars,
sequences, mappings, and aliases of nodes that came before.
-/

namespace Monkey.Yaml

/-! ## Characters -/

/-- Whether a character is a space or a tab. -/
def isBlank (c : Char) : Bool :=
  c = ' ' || c = '\t'

/-- Whether a character ends a line. -/
def isBreak (c : Char) : Bool :=
  c.toNat ∈ [0x0a, 0x0d, 0x85, 0x2028, 0x2029]

/-- Whether a character separates words. -/
def isGap (c : Char) : Bool :=
  isBlank c || isBreak c

/-- Whether nothing or a gap follows. -/
def atGap : List Char → Bool
  | [] => true
  | c :: _ => isGap c

/-- The single quote. -/
def singleQuote : Char :=
  Char.ofNat 0x27

/-- The brackets around a sequence. -/
def sequenceBrackets : Char × Char :=
  (Char.ofNat 0x5b, Char.ofNat 0x5d)

/-- The brackets around a mapping. -/
def mappingBrackets : Char × Char :=
  (Char.ofNat 0x7b, Char.ofNat 0x7d)

/-- Whether a character may stand in a name: a letter, a digit, a dash or an underscore. -/
def isNameSign (c : Char) : Bool :=
  c.isAlphanum || c = '-' || c = '_'

/-- The bytes of characters. -/
def encode (cs : List Char) : Text :=
  cs.flatMap String.utf8EncodeChar

/-! ## Places -/

/-- A place in a document, counted from zero. -/
structure Mark where
  index : Nat := 0
  line : Nat := 0
  column : Nat := 0
  deriving DecidableEq, Repr, Inhabited

/-- The place behind some characters. A carriage return and a newline are one line end. -/
def Mark.after (m : Mark) : List Char → Mark
  | [] => m
  | c :: rest =>
    if isBreak c ∧ ¬(c = '\r' ∧ rest.head? = some '\n') then
      Mark.after ⟨m.index + 1, m.line + 1, 0⟩ rest
    else Mark.after ⟨m.index + 1, m.line, m.column + 1⟩ rest

/-! ## Problems -/

/-- What can be wrong with a document. -/
inductive Cause where
  | badFirstByte
  | cutCharacter
  | badNextByte
  | longCharacter
  | badCharacter
  | controlCharacter
  | strangeSign
  | unknownDirective
  | noColon
  | entryHere
  | keyHere
  | valueHere
  | noName
  | noTagEnd
  | noTag
  | noTagBracket
  | markInQuotes
  | unclosedQuote
  | unknownEscape
  | noHexDigit
  | badEscape
  | zeroIndentation
  | noLineEnd
  | tabForSpace
  | tabInIndentation
  | noContent
  | noKey
  | noDash
  | unclosed (closing : Char)
  | unknownHandle
  | unknownAnchor (name : Text)
  | mistagged (meant value tag : Text)
  | mergeOfNoMapping
  deriving DecidableEq, Repr

/-- The wording of what is wrong. -/
def Cause.message : Cause → Text
  | .badFirstByte => text "invalid leading UTF-8 octet"
  | .cutCharacter => text "incomplete UTF-8 octet sequence"
  | .badNextByte => text "invalid trailing UTF-8 octet"
  | .longCharacter => text "invalid length of a UTF-8 sequence"
  | .badCharacter => text "invalid Unicode character"
  | .controlCharacter => text "control characters are not allowed"
  | .strangeSign => text "found character that cannot start any token"
  | .unknownDirective => text "found unknown directive name"
  | .noColon => text "could not find expected ':'"
  | .entryHere => text "block sequence entries are not allowed in this context"
  | .keyHere => text "mapping keys are not allowed in this context"
  | .valueHere => text "mapping values are not allowed in this context"
  | .noName => text "did not find expected alphabetic or numeric character"
  | .noTagEnd => text "did not find expected whitespace or line break"
  | .noTag => text "did not find expected tag URI"
  | .noTagBracket => text "did not find the expected '>'"
  | .markInQuotes => text "found unexpected document indicator"
  | .unclosedQuote => text "found unexpected end of stream"
  | .unknownEscape => text "found unknown escape character"
  | .noHexDigit => text "did not find expected hexdecimal number"
  | .badEscape => text "found invalid Unicode character escape code"
  | .zeroIndentation => text "found an indentation indicator equal to 0"
  | .noLineEnd => text "did not find expected comment or line break"
  | .tabForSpace => text "found a tab character where an indentation space is expected"
  | .tabInIndentation => text "found a tab character that violates indentation"
  | .noContent => text "did not find expected node content"
  | .noKey => text "did not find expected key"
  | .noDash => text "did not find expected '-' indicator"
  | .unclosed closing =>
    text "did not find expected ',' or '" ++ encode [closing] ++ text "'"
  | .unknownHandle => text "found undefined tag handle"
  | .unknownAnchor name => text "unknown anchor '" ++ name ++ text "' referenced"
  | .mistagged meant value tag =>
    text "cannot decode " ++ meant ++ text " `" ++ value ++ text "` as a " ++ tag
  | .mergeOfNoMapping => text "map merge requires map or sequence of maps as the value"

/-- What is wrong with a document, and the line to name; zero names none. -/
structure Malformed where
  cause : Cause
  line : Nat := 0
  deriving DecidableEq, Repr

/-- The wording of what is wrong with a document. -/
def Malformed.message (m : Malformed) : Text :=
  text "yaml: " ++ (if m.line = 0 then [] else text "line " ++ Text.ofNat m.line ++ text ": ")
    ++ m.cause.message

/-! ## From bytes to characters -/

/-- Why no character starts at a text. -/
def misread : Text → Cause
  | [] => .cutCharacter
  | b :: rest =>
    if b < 0xc0 ∨ 0xf8 ≤ b then .badFirstByte
    else
      let width := if b < 0xe0 then 1 else if b < 0xf0 then 2 else 3
      let tail := rest.take width
      if tail.length < width then .cutCharacter
      else if tail.any fun t => (Text.tail? t).isNone then .badNextByte
      else
        let n := tail.foldl (fun n t => n * 64 + t.toNat % 64)
          (b.toNat % (if b < 0xe0 then 32 else if b < 0xf0 then 16 else 8))
        let least := if width = 1 then 0x80 else if width = 2 then 0x800 else 0x10000
        if n < least then .longCharacter else .badCharacter

/-- Whether a character may stand in a document. -/
def isAllowed (c : Char) : Bool :=
  let n := c.toNat
  n = 0x09 || n = 0x0a || n = 0x0d || (0x20 ≤ n && n ≤ 0x7e) || n = 0x85
    || (0xa0 ≤ n && n ≤ 0xfffd) || 0x10000 ≤ n

/-- The first characters of a text, at most `n`. -/
def charactersUpTo : Nat → Text → Except Cause (List Char)
  | 0, _ => .ok []
  | _ + 1, [] => .ok []
  | n + 1, b :: rest =>
    match Text.decode? (b :: rest) with
    | none => .error (misread (b :: rest))
    | some (c, after) => do
      if !isAllowed c then throw .controlCharacter
      return c :: (← charactersUpTo n after)

/-- The characters of a text, without a byte order mark at its start. -/
def characters (t : Text) : Except Malformed (List Char) :=
  match charactersUpTo t.length t with
  | .error cause => .error { cause }
  | .ok (c :: rest) => .ok (if c.toNat = 0xfeff then rest else c :: rest)
  | .ok [] => .ok []

/-! ## Nodes -/

/-- A node. A scalar knows whether it is plain, and the tag it was given; an empty tag is none. -/
inductive Node where
  | scalar (line : Nat) (isPlain : Bool) (tag value : Text)
  | sequence (line : Nat) (tag : Text) (items : List Node)
  | mapping (line : Nat) (tag : Text) (entries : List (Node × Node))
  | alias (line : Nat) (name : Text) (target : Node)
  deriving Inhabited

/-- The line that a node starts in, counted from one. -/
def Node.line : Node → Nat
  | .scalar line _ _ _ | .sequence line _ _ | .mapping line _ _ | .alias line _ _ => line

end Monkey.Yaml
