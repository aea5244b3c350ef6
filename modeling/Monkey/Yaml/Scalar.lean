import Monkey.Text.Integer
import Monkey.Yaml.Basic

/-!
# YAML scalars

A scalar is written plain, between quotes, or as a block of lines. Where it goes on in another line,
one line end becomes a space and of several the first is dropped, except in a literal block.
-/

namespace Monkey.Yaml

/-- A problem inside a scalar, and what was left to read there. -/
structure Stuck where
  cause : Cause
  rest : List Char

/-! ## Gaps -/

/-- A line end as it is kept. -/
def keptBreak (c : Char) : Char :=
  if c.toNat = 0x2028 ∨ c.toNat = 0x2029 then c else '\n'

/-- The line ends of a gap. A carriage return before a newline is no line end of its own. -/
def breaksOf : List Char → List Char
  | [] => []
  | c :: rest =>
    if isBreak c ∧ ¬(c = '\r' ∧ rest.head? = some '\n') then keptBreak c :: breaksOf rest
    else breaksOf rest

/-- What a gap between words stands for. -/
def folded (gap : List Char) : List Char :=
  match breaksOf gap with
  | [] => gap
  | b :: more =>
    if b ≠ '\n' then b :: more else if more.isEmpty then [' '] else more

/-- Whether a gap has a line end. -/
def isBroken (gap : List Char) : Bool :=
  gap.any isBreak

/-- The column behind a gap that has a line end. -/
def columnBehind (gap : List Char) : Nat :=
  (gap.reverse.takeWhile isBlank).length

/-- Whether a gap has a tab among the first columns of a line. The column is none in the line in
which the gap starts. -/
def hasTabBefore (indent : Int) (column : Option Nat) : List Char → Bool
  | [] => false
  | c :: rest =>
    if isBreak c then hasTabBefore indent (some 0) rest
    else (c = '\t' && column.any fun n => (n : Int) < indent)
      || hasTabBefore indent (column.map (· + 1)) rest

/-- Whether three dashes or three dots stand here alone. -/
def isDocumentMark (rest : List Char) : Bool :=
  (rest.take 3 = ['-', '-', '-'] || rest.take 3 = ['.', '.', '.']) && atGap (rest.drop 3)

/-! ## Plain scalars -/

/-- Whether a character ends a plain word inside brackets. -/
def endsFlowWord (c : Char) : Bool :=
  c = ',' || c = '?' || c = sequenceBrackets.1 || c = sequenceBrackets.2 || c = mappingBrackets.1
    || c = mappingBrackets.2

/-- A word of a plain scalar, and what follows it. -/
def plainWord (inFlow : Bool) : List Char → List Char × List Char
  | [] => ([], [])
  | c :: rest =>
    if isGap c ∨ (c = ':' ∧ atGap rest) ∨ (inFlow ∧ endsFlowWord c) then ([], c :: rest)
    else
      let (word, after) := plainWord inFlow rest
      (c :: word, after)

/-- A scalar that was read, what is left behind it, and whether a new line was reached. -/
structure Reading where
  value : List Char
  rest : List Char
  newLine : Bool := false

/-- The rest of a plain scalar behind a gap, in at most `n` words. In a block it has to be
indented. -/
def plainFrom (indent : Int) (inFlow : Bool) : Nat → List Char → List Char → Except Stuck Reading
  | 0, gap, rest => .ok ⟨[], rest, isBroken gap⟩
  | n + 1, gap, rest =>
    let (word, after) := plainWord inFlow rest
    let marked := isBroken gap && columnBehind gap = 0 && isDocumentMark rest
    if word.isEmpty ∨ marked ∨ rest.head? = some '#' then .ok ⟨[], rest, isBroken gap⟩
    else
      let next := after.takeWhile isGap
      let behind := after.dropWhile isGap
      if hasTabBefore indent none next then .error ⟨.tabInIndentation, behind⟩
      else if !inFlow && isBroken next && columnBehind next < indent then
        .ok ⟨folded gap ++ word, behind, true⟩
      else do
        let more ← plainFrom indent inFlow n next behind
        return { more with value := folded gap ++ word ++ more.value }

/-- A plain scalar. -/
def plainScalar (indent : Int) (inFlow : Bool) (rest : List Char) : Except Stuck Reading :=
  plainFrom indent inFlow (rest.length + 1) [] rest

/-! ## Quoted scalars -/

/-- What a letter behind a backslash stands for. -/
def escape? (c : Char) : Option Char :=
  if c = singleQuote then some c
  else match c with
    | '0' => some (Char.ofNat 0x00)
    | 'a' => some (Char.ofNat 0x07)
    | 'b' => some (Char.ofNat 0x08)
    | 't' | '\t' => some '\t'
    | 'n' => some '\n'
    | 'v' => some (Char.ofNat 0x0b)
    | 'f' => some (Char.ofNat 0x0c)
    | 'r' => some '\r'
    | 'e' => some (Char.ofNat 0x1b)
    | ' ' => some ' '
    | '"' => some '"'
    | '\\' => some '\\'
    | 'N' => some (Char.ofNat 0x85)
    | '_' => some (Char.ofNat 0xa0)
    | 'L' => some (Char.ofNat 0x2028)
    | 'P' => some (Char.ofNat 0x2029)
    | _ => none

/-- How many hexadecimal digits follow a letter behind a backslash. -/
def escapeWidth? (c : Char) : Option Nat :=
  match c with
  | 'x' => some 2
  | 'u' => some 4
  | 'U' => some 8
  | _ => none

/-- The number of a hexadecimal digit. -/
def hexDigit? (c : Char) : Option Nat :=
  if c.toNat < 0x80 then (Text.digit? c.toNat.toUInt8).filter (· < 16) else none

/-- The character that hexadecimal digits name. -/
def escapeNumber (digits : List Char) (width : Nat) : Except Cause Char :=
  let numbers := digits.filterMap hexDigit?
  if numbers.length < width then .error .noHexDigit
  else
    let n := numbers.foldl (fun n d => n * 16 + d) 0
    if n.isValidChar then .ok (Char.ofNat n) else .error .badEscape

/-- The closing quote. -/
def closingQuote (isSingle : Bool) : Char :=
  if isSingle then singleQuote else '"'

/-- A word between quotes of at most `n` signs, what follows it, and whether it ends with a line end
behind a backslash. -/
def quotedWord (isSingle : Bool) : Nat → List Char → Except Stuck (List Char × List Char × Bool)
  | 0, rest => .ok ([], rest, false)
  | _ + 1, [] => .ok ([], [], false)
  | n + 1, c :: rest =>
    if isGap c then .ok ([], c :: rest, false)
    else if isSingle ∧ c = singleQuote ∧ rest.head? = some singleQuote then do
      let (word, after) ← quotedWord isSingle n rest.tail
      return (singleQuote :: word, after)
    else if c = closingQuote isSingle then .ok ([], c :: rest, false)
    else if !isSingle ∧ c = '\\' then
      match rest with
      | [] => .error ⟨.unknownEscape, c :: rest⟩
      | e :: more =>
        if isBreak e then
          .ok ([], if e = '\r' ∧ more.head? = some '\n' then more.tail else more, true)
        else match escape? e, escapeWidth? e with
          | some v, _ => do
            let (word, after) ← quotedWord isSingle n more
            return (v :: word, after)
          | none, some width =>
            match escapeNumber (more.take width) width with
            | .error cause => .error ⟨cause, more⟩
            | .ok v => do
              let (word, after) ← quotedWord isSingle n (more.drop width)
              return (v :: word, after)
          | none, none => .error ⟨.unknownEscape, c :: rest⟩
    else do
      let (word, after) ← quotedWord isSingle n rest
      return (c :: word, after)

/-- The rest of a quoted scalar, in at most `n` words. The flag says whether a line starts here. -/
def quotedFrom (isSingle : Bool) : Nat → Bool → List Char → Except Stuck Reading
  | 0, _, rest => .error ⟨.unclosedQuote, rest⟩
  | n + 1, lineStart, rest =>
    if lineStart && isDocumentMark rest then .error ⟨.markInQuotes, rest⟩
    else if rest.isEmpty then .error ⟨.unclosedQuote, rest⟩
    else do
      let (word, after, escaped) ← quotedWord isSingle rest.length rest
      if after.head? = some (closingQuote isSingle) then return ⟨word, after.tail, false⟩
      let gap := after.takeWhile isGap
      let joint := if escaped then breaksOf gap else folded gap
      let starts := (escaped || isBroken gap) && columnBehind gap = 0
      let more ← quotedFrom isSingle n starts (after.dropWhile isGap)
      return { more with value := word ++ joint ++ more.value }

/-- A quoted scalar behind its opening quote. -/
def quotedScalar (isSingle : Bool) (rest : List Char) : Except Stuck Reading :=
  quotedFrom isSingle (rest.length + 1) false rest

/-! ## Block scalars -/

/-- What to do with the line ends behind a block. -/
inductive Chomping where
  | strip
  | clip
  | keep
  deriving DecidableEq, Repr

/-- The chomping that a sign stands for. -/
def Chomping.ofSign? (c : Char) : Option Chomping :=
  if c = '+' then some .keep else if c = '-' then some .strip else none

/-- The header of a block: chomping and indentation, in either order. -/
def blockHeader (rest : List Char) : Except Stuck (Chomping × Nat × List Char) :=
  match rest with
  | [] => .ok (.clip, 0, [])
  | c :: more =>
    match Chomping.ofSign? c with
    | some chomping =>
      match more with
      | d :: behind => do
        if d = '0' then throw ⟨.zeroIndentation, more⟩
        if d.isDigit then return (chomping, d.toNat - 0x30, behind)
        return (chomping, 0, more)
      | [] => .ok (chomping, 0, [])
    | none => do
      if c = '0' then throw ⟨.zeroIndentation, rest⟩
      if !c.isDigit then return (.clip, 0, rest)
      match more.head?.bind Chomping.ofSign? with
      | some chomping => return (chomping, c.toNat - 0x30, more.tail)
      | none => return (.clip, c.toNat - 0x30, more)

/-- The empty lines before a line of a block. -/
structure BlockGap where
  breaks : List Char
  column : Nat
  widest : Nat
  rest : List Char

/-- Move over indentation and empty lines. Without a known indentation (zero) all spaces are
indentation. -/
def blockGap (indent column widest : Nat) : List Char → Except Stuck BlockGap
  | [] => .ok ⟨[], column, max widest column, []⟩
  | c :: rest =>
    let inside := indent = 0 || column < indent
    if c = ' ' && inside then blockGap indent (column + 1) widest rest
    else if c = '\t' && inside then .error ⟨.tabForSpace, c :: rest⟩
    else if isBreak c then
      if c = '\r' ∧ rest.head? = some '\n' then blockGap indent column widest rest
      else do
        let gap ← blockGap indent 0 (max widest column) rest
        return { gap with breaks := keptBreak c :: gap.breaks }
    else .ok ⟨[], column, max widest column, c :: rest⟩

/-- The lines of a block, at most `n`. Before the first line stand the line end of the line before
it and then the ends of empty lines. -/
def blockLines (literal : Bool) (chomping : Chomping) (indent : Nat) :
    Nat → (lineEnd : List Char) → (blankBefore : Bool) → BlockGap → Except Stuck Reading
  | 0, _, _, gap => .ok ⟨[], gap.rest, true⟩
  | n + 1, lineEnd, blankBefore, gap =>
    if gap.column ≠ indent ∨ gap.rest.isEmpty then
      .ok ⟨(if chomping = .strip then [] else lineEnd)
        ++ (if chomping = .keep then gap.breaks else []), gap.rest, true⟩
    else do
      let blank := gap.rest.head?.any isBlank
      let joint :=
        if !literal && !blankBefore && !blank && lineEnd.head? = some '\n' then
          (if gap.breaks.isEmpty then [' '] else [])
        else lineEnd
      let line := gap.rest.takeWhile fun c => !isBreak c
      let after := gap.rest.dropWhile fun c => !isBreak c
      let (ending, behind) := match after with
        | [] => ([], [])
        | c :: rest =>
          if c = '\r' ∧ rest.head? = some '\n' then (['\n'], rest.tail) else ([keptBreak c], rest)
      let next ← blockGap indent 0 0 behind
      let more ← blockLines literal chomping indent n ending blank next
      return { more with value := joint ++ gap.breaks ++ line ++ more.value }

/-- A block scalar behind its sign, inside an indentation. -/
def blockScalar (literal : Bool) (outer : Int) (rest : List Char) : Except Stuck Reading := do
  let (chomping, increment, afterHeader) ← blockHeader rest
  let comment := afterHeader.dropWhile isBlank
  let lineEnd := if comment.head? = some '#' then comment.dropWhile fun c => !isBreak c else comment
  let body ← match lineEnd with
    | [] => pure []
    | c :: more =>
      if isBreak c then pure (if c = '\r' ∧ more.head? = some '\n' then more.tail else more)
      else throw ⟨.noLineEnd, lineEnd⟩
  let known := if increment = 0 then 0 else (max outer 0).toNat + increment
  let gap ← blockGap known 0 0 body
  let indent := if known = 0 then max gap.widest (max (outer + 1).toNat 1) else known
  blockLines literal chomping indent (rest.length + 1) [] false gap

end Monkey.Yaml
