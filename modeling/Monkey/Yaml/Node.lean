import Monkey.Yaml.Token

/-!
# YAML nodes

The root of the first document in a text. Blocks and brackets hold nodes; a node may have an anchor
and a tag before it. A missing key or value is an empty plain scalar.
-/

namespace Monkey.Yaml

namespace Scan

/-- Stop because a token does not fit, inside something that started at a place. -/
def reject {α : Type} (start : Mark) (token : Token) (cause : Cause) : Scan α :=
  throw ⟨cause, if start.line ≠ 0 then start.line else token.mark.line⟩

/-- A missing node. -/
def emptyNode (mark : Mark) : Node :=
  .scalar (mark.line + 1) true [] []

/-- The long form of the tags that start with two exclamation marks. -/
def standardTags : Text :=
  text "tag:yaml.org,2002:"

/-- A tag in its short form. -/
def shortTag (tag : Text) : Text :=
  match Text.afterStart? standardTags tag with
  | some name => text "!!" ++ name
  | none => tag

/-- What stands before a node. -/
structure Properties where
  mark : Mark
  anchor : Option Text := none
  tag : Text := []

/-- The tag with a handle, in its short form. -/
def tagOf (start : Mark) (token : Token) (handle suffix : List Char) : Scan Text :=
  if handle.isEmpty then pure (shortTag (encode suffix))
  else if handle = ['!'] then pure (encode ('!' :: suffix))
  else if handle = ['!', '!'] then pure (encode ('!' :: '!' :: suffix))
  else reject start token .unknownHandle

/-- Read the anchor and the tag before a node, in either order. -/
def properties : Scan Properties := do
  let first ← peek
  match first.kind with
  | .anchor name =>
    take
    let second ← peek
    match second.kind with
    | .tag handle suffix =>
      take
      return ⟨first.mark, some (encode name), ← tagOf first.mark second handle suffix⟩
    | _ => return ⟨first.mark, some (encode name), []⟩
  | .tag handle suffix =>
    take
    let second ← peek
    match second.kind with
    | .anchor name =>
      take
      return ⟨first.mark, some (encode name), ← tagOf first.mark first handle suffix⟩
    | _ => return ⟨first.mark, none, ← tagOf first.mark first handle suffix⟩
  | _ => return { mark := first.mark }

/-- Remember a node by its anchor. -/
def remember (p : Properties) (n : Node) : Scan Node := do
  match p.anchor with
  | some name => modify fun s => { s with anchors := (name, n) :: s.anchors }
  | none => pure ()
  return n

/-! ## Nodes over a rule for nodes -/

section

/- The rule for a node, in a block or not, where a sequence may stand without indentation or not. -/
variable (node : Bool → Bool → Scan Node)

/-- A node, unless a token of some kinds follows. -/
def nodeUnless (block indentless : Bool) (ends : TokenKind → Bool) (mark : Mark) : Scan Node := do
  if ends (← peek).kind then return emptyNode mark else node block indentless

/-- The entries of a sequence in a block, at most `n`. -/
def blockItems (start : Mark) : Nat → Scan (List Node)
  | 0 => return []
  | n + 1 => do
    let token ← peek
    match token.kind with
    | .dash =>
      take
      let item ← nodeUnless node true false (fun k => k = .dash || k = .closeBlock) token.mark
      return item :: (← blockItems start n)
    | .closeBlock =>
      take
      return []
    | _ => reject start token .noDash

/-- The entries of a sequence that is not indented, at most `n`. -/
def looseItems : Nat → Scan (List Node)
  | 0 => return []
  | n + 1 => do
    let token ← peek
    match token.kind with
    | .dash =>
      take
      let item ← nodeUnless node true false
        (fun k => k = .dash || k = .key || k = .value || k = .closeBlock) token.mark
      return item :: (← looseItems n)
    | _ => return []

/-- The value behind a key in a block. -/
def blockValue : Scan Node := do
  let token ← peek
  if token.kind = .value then
    take
    nodeUnless node true true (fun k => k = .key || k = .value || k = .closeBlock) token.mark
  else return emptyNode token.mark

/-- The entries of a mapping in a block, at most `n`. -/
def blockEntries (start : Mark) : Nat → Scan (List (Node × Node))
  | 0 => return []
  | n + 1 => do
    let token ← peek
    match token.kind with
    | .key =>
      take
      let key ← nodeUnless node true true
        (fun k => k = .key || k = .value || k = .closeBlock) token.mark
      let value ← blockValue node
      return (key, value) :: (← blockEntries start n)
    | .closeBlock =>
      take
      return []
    | _ => reject start token .noKey

/-- The value behind a key inside brackets. -/
def flowValue (isMapping : Bool) : Scan Node := do
  let token ← peek
  if token.kind = .value then
    take
    nodeUnless node false false (fun k => k = .comma || k = .closeFlow isMapping) token.mark
  else return emptyNode token.mark

/-- The comma before an entry that is not the first. -/
def comma (start : Mark) (isMapping isFirst : Bool) : Scan Unit := do
  let token ← peek
  if !isFirst then
    if token.kind = .comma then take
    else if token.kind ≠ .closeFlow isMapping then
      let brackets := if isMapping then mappingBrackets else sequenceBrackets
      reject start token (.unclosed brackets.2)

/-- The items of a sequence in brackets, at most `n`. An item with a key is a mapping of its own. -/
def flowItems (start : Mark) (isFirst : Bool) : Nat → Scan (List Node)
  | 0 => return []
  | n + 1 => do
    comma start false isFirst
    let token ← peek
    match token.kind with
    | .closeFlow false =>
      take
      return []
    | .key =>
      take
      let key ← nodeUnless node false false
        (fun k => k = .value || k = .comma || k = .closeFlow false) token.mark
      let value ← flowValue node false
      return .mapping (token.mark.line + 1) [] [(key, value)] :: (← flowItems start false n)
    | _ =>
      let item ← node false false
      return item :: (← flowItems start false n)

/-- The entries of a mapping in brackets, at most `n`. A key may have no value. -/
def flowEntries (start : Mark) (isFirst : Bool) : Nat → Scan (List (Node × Node))
  | 0 => return []
  | n + 1 => do
    comma start true isFirst
    let token ← peek
    match token.kind with
    | .closeFlow true =>
      take
      return []
    | .key =>
      take
      let key ← nodeUnless node false false
        (fun k => k = .value || k = .comma || k = .closeFlow true) token.mark
      let value ← flowValue node true
      return (key, value) :: (← flowEntries start false n)
    | _ =>
      let key ← node false false
      let value := emptyNode (← peek).mark
      return (key, value) :: (← flowEntries start false n)

end

/-- A node, of at most `n` nodes inside one another. -/
def node : Nat → Bool → Bool → Scan Node
  | 0, _, _ => return emptyNode {}
  | n + 1, block, indentless => do
    let first ← peek
    match first.kind with
    | .alias name =>
      take
      match (← get).anchors.lookup (encode name) with
      | some target => return .alias (first.mark.line + 1) (encode name) target
      | none => throw { cause := .unknownAnchor (encode name) }
    | _ =>
      let p ← properties
      let token ← peek
      let line := p.mark.line + 1
      let most := (← get).rest.length + (← get).queue.length + 2
      match token.kind with
      | .scalar isPlain value =>
        take
        remember p (.scalar line isPlain p.tag (encode value))
      | .openFlow false =>
        take
        remember p (.sequence line p.tag (← flowItems (node n) token.mark true most))
      | .openFlow true =>
        take
        remember p (.mapping line p.tag (← flowEntries (node n) token.mark true most))
      | kind =>
        if indentless ∧ kind = .dash then
          remember p (.sequence line p.tag (← looseItems (node n) most))
        else if block ∧ kind = .openBlock false then
          take
          remember p (.sequence line p.tag (← blockItems (node n) token.mark most))
        else if block ∧ kind = .openBlock true then
          take
          remember p (.mapping line p.tag (← blockEntries (node n) token.mark most))
        else if p.anchor.isSome ∨ p.tag ≠ [] then
          remember p (.scalar line true p.tag [])
        else reject p.mark token .noContent

/-- The root of the first document, if there is a document. What follows the root up to the end of
the document is not looked at beyond the lookahead. -/
def root? (most : Nat) : Scan (Option Node) := do
  let first ← peek
  let root ← match first.kind with
    | .finish => return none
    | .documentStart =>
      take
      let token ← peek
      match token.kind with
      | .documentStart | .documentEnd | .finish => pure (emptyNode token.mark)
      | _ => node most true false
    | _ => node most true false
  let behind ← peek
  if behind.kind = .documentEnd then take
  return some root

end Scan

/-- The root of the first document in a text, if there is a document. -/
def root? (t : Text) : Except Malformed (Option Node) := do
  let signs ← characters t
  let (root, _) ← (Scan.root? (signs.length + 2)).run { rest := signs }
  return root

end Monkey.Yaml
