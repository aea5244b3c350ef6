import Monkey.Yaml.Scalar

/-!
# YAML tokens

Tokens are taken from a document one after another, with a little lookahead. Indentation opens and
closes blocks. A node that turns out to be a key, because a colon follows it in the same line, gets
a key token in front of it after the fact; therefore tokens wait in a queue until that is decided.
-/

namespace Monkey.Yaml

/-- What a token is. -/
inductive TokenKind where
  | finish
  | documentStart
  | documentEnd
  | openBlock (isMapping : Bool)
  | closeBlock
  | openFlow (isMapping : Bool)
  | closeFlow (isMapping : Bool)
  | dash
  | comma
  | key
  | value
  | alias (name : List Char)
  | anchor (name : List Char)
  | tag (handle suffix : List Char)
  | scalar (isPlain : Bool) (text : List Char)
  deriving DecidableEq, Repr, Inhabited

/-- A token and where it starts. -/
structure Token where
  kind : TokenKind
  mark : Mark
  deriving Inhabited

/-- A place where a key may start, with the number of its token. A required key has to be one. -/
structure KeyStart where
  required : Bool
  number : Nat
  mark : Mark

/-- A document that is being read. The indentation is that of the innermost block, and minus one
outside of all. For each level of brackets there may be a place where a key starts. -/
structure Scanner where
  rest : List Char
  mark : Mark := {}
  flow : Nat := 0
  indent : Int := -1
  outer : List Int := []
  keyAllowed : Bool := true
  keys : List (Option KeyStart) := [none]
  queue : List Token := []
  taken : Nat := 0
  anchors : List (Text × Node) := []

/-- Reading a document. -/
abbrev Scan := StateT Scanner (Except Malformed)

namespace Scan

/-- Stop at a problem that started at a place. A line is named from the second line on. -/
def stop {α : Type} (start : Mark) (cause : Cause) : Scan α := do
  let here := (← get).mark
  throw ⟨cause, if start.line ≠ 0 then start.line + 1 else if here.line ≠ 0 then here.line + 1
    else 0⟩

/-- Move to what is left to read. -/
def moveTo (rest : List Char) : Scan Unit :=
  modify fun s =>
    { s with rest, mark := s.mark.after (s.rest.take (s.rest.length - rest.length)) }

/-- Move over some characters. -/
def skip (n : Nat) : Scan Unit := do
  moveTo ((← get).rest.drop n)

/-- Put a token at the end of the queue. -/
def push (kind : TokenKind) (mark : Mark) : Scan Unit :=
  modify fun s => { s with queue := s.queue ++ [⟨kind, mark⟩] }

/-- Put a token before the one with a number. -/
def insert (number : Nat) (kind : TokenKind) (mark : Mark) : Scan Unit :=
  modify fun s =>
    let (before, after) := s.queue.splitAt (number - s.taken)
    { s with queue := before ++ ⟨kind, mark⟩ :: after }

/-- Say whether a key may start next. -/
def allowKey (allowed : Bool) : Scan Unit :=
  modify fun s => { s with keyAllowed := allowed }

/-! ## Where keys start -/

/-- Set the place where a key may start at the current level. -/
def setKey (key : Option KeyStart) : Scan Unit :=
  modify fun s => { s with keys := key :: s.keys.tail }

/-- Forget the place where a key may start. It is a problem if a key was required. -/
def dropKey : Scan Unit := do
  match (← get).keys.head?.join with
  | some key => if key.required then stop key.mark .noColon
  | none => pure ()
  setKey none

/-- Note that a key may start here. -/
def noteKey : Scan Unit := do
  let s ← get
  if s.keyAllowed then
    let required := s.flow = 0 && s.indent = s.mark.column
    dropKey
    setKey (some ⟨required, s.taken + s.queue.length, s.mark⟩)

/-- Whether a place where a key may start is still good: in this line, and not too far back. -/
def keyHolds (key : KeyStart) : Scan Bool := do
  let here := (← get).mark
  if key.mark.line < here.line ∨ key.mark.index + 1024 < here.index then
    if key.required then stop key.mark .noColon
    return false
  else return true

/-! ## Blocks -/

/-- Close the blocks that are indented more than a column. -/
def closeBlocks (column : Int) (mark : Mark) : Nat → Scan Unit
  | 0 => pure ()
  | n + 1 => do
    let s ← get
    if s.flow = 0 ∧ column < s.indent then
      push .closeBlock mark
      set { (← get) with indent := s.outer.head?.getD (-1), outer := s.outer.tail }
      closeBlocks column mark n

/-- Close the blocks that are indented more than a column. -/
def unindent (column : Int) (mark : Mark) : Scan Unit := do
  closeBlocks column mark ((← get).outer.length + 1)

/-- Open a block at a column, and place its token, if it is indented more than the innermost one. -/
def indentTo (column : Nat) (place : Scan Unit) : Scan Unit := do
  let s ← get
  if s.flow = 0 ∧ s.indent < column then
    set { s with outer := s.indent :: s.outer, indent := (column : Int) }
    place

/-! ## Single tokens -/

/-- Take signs that are a token. -/
def sign (width : Nat) (kind : TokenKind) : Scan Unit := do
  push kind (← get).mark
  skip width

/-- An opening bracket. -/
def openFlow (isMapping : Bool) : Scan Unit := do
  noteKey
  modify fun s => { s with flow := s.flow + 1, keys := none :: s.keys }
  allowKey true
  sign 1 (.openFlow isMapping)

/-- A closing bracket. -/
def closeFlow (isMapping : Bool) : Scan Unit := do
  dropKey
  modify fun s => if s.flow = 0 then s else { s with flow := s.flow - 1, keys := s.keys.tail }
  allowKey false
  sign 1 (.closeFlow isMapping)

/-- A sign that opens an entry or a key in a block. -/
def blockSign (cause : Cause) (isMapping : Bool) (kind : TokenKind) : Scan Unit := do
  let s ← get
  if s.flow = 0 then
    if !s.keyAllowed then stop s.mark cause
    indentTo s.mark.column (push (.openBlock isMapping) s.mark)
  dropKey
  allowKey (s.flow = 0 || !isMapping)
  sign 1 kind

/-- A colon behind a key. If the key did not start with a sign of its own, it gets its token now. -/
def colon : Scan Unit := do
  let s ← get
  let key? ← match s.keys.head?.join with
    | none => pure none
    | some key => do
      if ← keyHolds key then pure (some key)
      else do
        setKey none
        pure none
  match key? with
  | some key =>
    insert key.number .key key.mark
    indentTo key.mark.column (insert key.number (.openBlock true) key.mark)
    setKey none
    allowKey false
  | none =>
    if s.flow = 0 then
      if !s.keyAllowed then stop s.mark .valueHere
      indentTo s.mark.column (push (.openBlock true) s.mark)
    allowKey (s.flow = 0)
  sign 1 .value

/-- The name of an anchor or an alias. -/
def named (isAlias : Bool) : Scan Unit := do
  let s ← get
  noteKey
  allowKey false
  let name := s.rest.tail.takeWhile isNameSign
  let behind := s.rest.tail.dropWhile isNameSign
  let ends := atGap behind || behind.head?.any fun c =>
    c ∈ ['?', ':', ',', sequenceBrackets.2, mappingBrackets.2, '%', '@', Char.ofNat 0x60]
  if name.isEmpty ∨ !ends then stop s.mark .noName
  push (if isAlias then .alias name else .anchor name) s.mark
  moveTo behind

/-- Whether a character may stand in a tag. -/
def isTagSign (c : Char) : Bool :=
  isNameSign c || c = singleQuote
    || c ∈ [';', '/', '?', ':', '@', '&', '=', '+', '$', '.', '!', '~', '*', '(', ')', '%']

/-- A tag. -/
def tagged : Scan Unit := do
  let s ← get
  noteKey
  allowKey false
  let more := s.rest.tail
  let (handle, suffix, behind) ←
    if more.head? = some '<' then
      let isSign := fun c => isTagSign c || c = ',' || c = sequenceBrackets.1
        || c = sequenceBrackets.2
      let uri := more.tail.takeWhile isSign
      let behind := more.tail.dropWhile isSign
      if uri.isEmpty then stop s.mark .noTag
      else if behind.head? ≠ some '>' then stop s.mark .noTagBracket
      else pure ([], uri, behind.tail)
    else
      let name := more.takeWhile isNameSign
      let behind := more.dropWhile isNameSign
      if behind.head? = some '!' then
        let suffix := behind.tail.takeWhile isTagSign
        if suffix.isEmpty then stop s.mark .noTag
        else pure ('!' :: name ++ ['!'], suffix, behind.tail.dropWhile isTagSign)
      else
        let suffix := name ++ behind.takeWhile isTagSign
        let rest := behind.dropWhile isTagSign
        if suffix.isEmpty then pure ([], ['!'], rest) else pure (['!'], suffix, rest)
  if !atGap behind then stop s.mark .noTagEnd
  push (.tag handle suffix) s.mark
  moveTo behind

/-- A scalar that was read, or the problem in it. -/
def scalar (isPlain : Bool) (start : Mark) (reading : Except Stuck Reading) : Scan Unit := do
  match reading with
  | .error stuck =>
    moveTo stuck.rest
    stop start stuck.cause
  | .ok r =>
    push (.scalar isPlain r.value) start
    moveTo r.rest
    if r.newLine then allowKey true

/-! ## The next token -/

/-- What is left behind blanks, comments and line ends, and whether a key may start there. In a
block, a line may start with a key, but not with a tab. -/
def skipGap (inFlow allowed lineStart inComment : Bool) : List Char → List Char × Bool
  | [] => ([], allowed)
  | c :: rest =>
    if isBreak c then
      if c = '\r' ∧ rest.head? = some '\n' then skipGap inFlow allowed lineStart inComment rest
      else skipGap inFlow (allowed || !inFlow) true false rest
    else if inComment then skipGap inFlow allowed false true rest
    else if c = ' ' ∨ (c = '\t' ∧ (inFlow ∨ !allowed)) then skipGap inFlow allowed false false rest
    else if c.toNat = 0xfeff ∧ lineStart then skipGap inFlow allowed false false rest
    else if c = '#' then skipGap inFlow allowed false true rest
    else (c :: rest, allowed)

/-- A token that ends all blocks. -/
def documentSign (kind : TokenKind) (width : Nat) : Scan Unit := do
  unindent (-1) (← get).mark
  dropKey
  allowKey false
  sign width kind

/-- The end of the document. It stands at the start of a line. -/
def finish : Scan Unit := do
  modify fun s =>
    if s.mark.column = 0 then s else { s with mark := ⟨s.mark.index, s.mark.line + 1, 0⟩ }
  documentSign .finish 0

/-- Whether a character that does not stand alone may start a plain scalar. -/
def startsPlain (inFlow : Bool) (c : Char) (rest : List Char) : Bool :=
  if c = '-' then !rest.head?.any isBlank
  else if c = '?' ∨ c = ':' then !inFlow && !atGap rest
  else !isGap c && !endsFlowWord c && c ≠ singleQuote
    && c ∉ ['#', '&', '*', '!', '|', '>', '"', '%', '@', Char.ofNat 0x60]

/-- Read the next token into the queue. -/
def fetch : Scan Unit := do
  let before ← get
  let (rest, allowed) :=
    skipGap (before.flow ≠ 0) before.keyAllowed (before.mark.column = 0) false before.rest
  moveTo rest
  allowKey allowed
  unindent (← get).mark.column before.mark
  let s ← get
  let inFlow := s.flow ≠ 0
  match s.rest with
  | [] => finish
  | c :: rest =>
    let atStart := s.mark.column = 0
    if atStart ∧ c = '%' then stop s.mark .unknownDirective
    else if atStart ∧ isDocumentMark s.rest then
      documentSign (if c = '-' then .documentStart else .documentEnd) 3
    else if c = sequenceBrackets.1 then openFlow false
    else if c = mappingBrackets.1 then openFlow true
    else if c = sequenceBrackets.2 then closeFlow false
    else if c = mappingBrackets.2 then closeFlow true
    else if c = ',' then do
      dropKey
      allowKey true
      sign 1 .comma
    else if c = '-' ∧ atGap rest then blockSign .entryHere false .dash
    else if c = '?' ∧ (inFlow ∨ atGap rest) then blockSign .keyHere true .key
    else if c = ':' ∧ (inFlow ∨ atGap rest) then colon
    else if c = '*' then named true
    else if c = '&' then named false
    else if c = '!' then tagged
    else if (c = '|' ∨ c = '>') ∧ !inFlow then do
      dropKey
      allowKey true
      scalar false s.mark (blockScalar (c = '|') s.indent rest)
    else if c = singleQuote ∨ c = '"' then do
      noteKey
      allowKey false
      scalar false s.mark (quotedScalar (c = singleQuote) rest)
    else if startsPlain inFlow c rest then do
      noteKey
      allowKey false
      scalar true s.mark (plainScalar (s.indent + 1) inFlow s.rest)
    else stop s.mark .strangeSign

/-! ## Taking tokens -/

/-- Whether the first token in the queue may still turn out to be a key. -/
def headMayBeKey : Scan Bool := do
  let s ← get
  match s.keys.findSome? fun k => k.filter (·.number = s.taken) with
  | some key => keyHolds key
  | none => return false

/-- Read tokens until there are three, and the first is known not to be a key. -/
def fill : Nat → Scan Unit
  | 0 => pure ()
  | n + 1 => do
    if (← get).queue.length < 3 then do
      fetch
      fill n
    else if ← headMayBeKey then do
      fetch
      fill n

/-- The next token. -/
def peek : Scan Token := do
  fill ((← get).rest.length + 4)
  return (← get).queue.head?.getD ⟨.finish, {}⟩

/-- Take the next token. -/
def take : Scan Unit :=
  modify fun s => { s with queue := s.queue.tail, taken := s.taken + 1 }

end Scan

end Monkey.Yaml
