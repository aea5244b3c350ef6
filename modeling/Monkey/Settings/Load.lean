import Monkey.Files.Tree
import Monkey.Settings.Basic
import Monkey.Yaml.Meaning
import Monkey.Yaml.Node

/-!
# Settings from a file

Settings are read from a YAML file over the usual ones. The file is named, or else it is
`.monkey.yaml` in the home directory, and then it may be missing. A null leaves a setting as it is,
a text takes any scalar as it is written, and a number takes integers and fractions, cut toward
zero.
-/

namespace Monkey

/-! ## From a document to settings -/

/-- Something in a document that does not fit the settings. -/
inductive Misfit where
  | duplicate (line : Nat) (key : Text) (first : Nat)
  | setTwice (line : Nat) (name : Text)
  | unknownField (line : Nat) (name : Text)
  | node (line : Nat) (tag value target : Text)
  deriving DecidableEq, Repr

/-- The name of the settings as a whole, where a document does not fit them. -/
def settingsName : Text :=
  text "config.Config"

/-- The wording of a misfit. A long scalar is cut, and collections are not shown. -/
def Misfit.message : Misfit → Text
  | .duplicate line key first =>
    text "line " ++ Text.ofNat line ++ text ": mapping key " ++ key.quoted
      ++ text " already defined at line " ++ Text.ofNat first
  | .setTwice line name =>
    text "line " ++ Text.ofNat line ++ text ": field " ++ name ++ text " already set in type "
      ++ settingsName
  | .unknownField line name =>
    text "line " ++ Text.ofNat line ++ text ": field " ++ name ++ text " not found in type "
      ++ settingsName
  | .node line tag value target =>
    let shown := if 10 < value.length then value.take 7 ++ text "..." else value
    let part := if tag = text "!!seq" ∨ tag = text "!!map" then []
      else text " `" ++ shown ++ text "`"
    text "line " ++ Text.ofNat line ++ text ": cannot unmarshal " ++ tag ++ part ++ text " into "
      ++ target

namespace Settings

/-! ### Values -/

/-- Gathering misfits, until something is wrong with the whole document. -/
abbrev Gather := StateT (List Misfit) (Except Yaml.Malformed)

/-- Note a misfit. -/
def note (m : Misfit) : Gather Unit :=
  modify (· ++ [m])

/-- The tag of a collection. -/
def collectionTag (tag usual : Text) : Text :=
  if Yaml.isOpenTag tag then usual else tag

/-- Note that a node does not fit a target. -/
def noteNode (n : Yaml.Node) (target : Text) : Gather Unit :=
  match n with
  | .scalar line isPlain tag value =>
    note (.node line (Yaml.scalarTag isPlain tag value) value target)
  | .sequence line tag _ => note (.node line (collectionTag tag (text "!!seq")) [] target)
  | .mapping line tag _ => note (.node line (collectionTag tag (text "!!map")) [] target)
  | .alias line _ _ => note (.node line [] [] target)

/-- Whether two keys are written alike. -/
def sameKey : Yaml.Node → Yaml.Node → Bool
  | .scalar _ _ _ a, .scalar _ _ _ b => a = b
  | .sequence _ _ _, .sequence _ _ _ => true
  | .mapping _ _ _, .mapping _ _ _ => true
  | .alias _ a _, .alias _ b _ => a = b
  | _, _ => false

/-- A key as it is written. -/
def keyText : Yaml.Node → Text
  | .scalar _ _ _ value => value
  | .alias _ name _ => name
  | .sequence _ _ _ | .mapping _ _ _ => []

/-- Keys that are defined again after themselves. -/
def duplicates : List (Yaml.Node × Yaml.Node) → List Misfit
  | [] => []
  | (key, _) :: rest =>
    (rest.filterMap fun (other, _) =>
      if sameKey key other then some (.duplicate other.line (keyText other) key.line) else none)
      ++ duplicates rest

/-- Note the keys that a mapping defines again, and say whether there are none. -/
def noteDuplicates (entries : List (Yaml.Node × Yaml.Node)) : Gather Bool := do
  let ds := duplicates entries
  ds.forM note
  return ds.isEmpty

/-- The text that a node gives, if it is not null and fits. -/
def textOf : Yaml.Node → Gather (Option Text)
  | .scalar _ isPlain tag value => do
    match ← Yaml.meaning isPlain tag value with
    | .null => return none
    | _ => return some value
  | .alias _ _ target => textOf target
  | .mapping line tag entries => do
    if ← noteDuplicates entries then noteNode (.mapping line tag entries) (text "string")
    return none
  | .sequence line tag items => do
    noteNode (.sequence line tag items) (text "string")
    return none

/-- The number that a node gives, if it is not null and fits. -/
def numberOf : Yaml.Node → Gather (Option Int)
  | .scalar line isPlain tag value => do
    match ← Yaml.meaning isPlain tag value with
    | .null => return none
    | .float (some n) => return some n
    | .int n =>
      if n < 2 ^ 63 then return some n
      noteNode (.scalar line isPlain tag value) (text "int")
      return none
    | _ =>
      noteNode (.scalar line isPlain tag value) (text "int")
      return none
  | .alias _ _ target => numberOf target
  | .mapping line tag entries => do
    if ← noteDuplicates entries then noteNode (.mapping line tag entries) (text "int")
    return none
  | .sequence line tag items => do
    noteNode (.sequence line tag items) (text "int")
    return none

/-! ### Fields -/

/-- The settings with one field set, if there is such a field. -/
def set? (s : Settings) (field : Text) (n : Yaml.Node) : Option (Gather Settings) :=
  let withText (put : Text → Settings) : Gather Settings := do
    return ((← textOf n).map put).getD s
  let withNumber (put : Int → Settings) : Gather Settings := do
    return ((← numberOf n).map put).getD s
  if field = text "prompt" then some (withText fun t => { s with prompt := t })
  else if field = text "history_file" then some (withText fun t => { s with historyFile := t })
  else if field = text "color" then some (withText fun t => { s with color := t })
  else if field = text "max_steps" then some (withNumber fun i => { s with maxSteps := i })
  else if field = text "max_depth" then some (withNumber fun i => { s with maxDepth := i })
  else if field = text "log_level" then some (withText fun t => { s with logLevel := t })
  else none

/-- Whether a key merges a mapping. -/
def isMerge : Yaml.Node → Bool
  | .scalar _ isPlain tag value => value = Yaml.mergeKey && isPlain && Yaml.isOpenTag tag
  | _ => false

/-- Set fields one after another, but none whose name was seen before. A null key is passed over. A
merge passes over names that were seen before, too. The names seen are part of the result. -/
def setAll (s : Settings) (merging : Bool) (seen : List Text) :
    List (Yaml.Node × Yaml.Node) → Gather (Settings × List Text)
  | [] => return (s, seen)
  | (key, value) :: rest => do
    if isMerge key then s.setAll merging seen rest
    else match ← textOf key with
      | none => s.setAll merging seen rest
      | some name =>
        if merging ∧ name ∈ seen then s.setAll merging seen rest
        else match s.set? name value with
          | none =>
            note (.unknownField key.line name)
            s.setAll merging (name :: seen) rest
          | some change =>
            if name ∈ seen then
              note (.setTwice key.line name)
              s.setAll merging seen rest
            else (← change).setAll merging (name :: seen) rest

/-- The mappings that a merge takes from, in order. -/
def mergedMappings : Yaml.Node → Option (List (List (Yaml.Node × Yaml.Node)))
  | .mapping _ _ entries => some [entries]
  | .alias _ _ (.mapping _ _ entries) => some [entries]
  | .sequence _ _ items => items.mapM fun
    | .mapping _ _ entries => some entries
    | .alias _ _ (.mapping _ _ entries) => some entries
    | _ => none
  | _ => none

/-- Set the fields of mappings that are merged in. -/
def setMerged (s : Settings) (seen : List Text) :
    List (List (Yaml.Node × Yaml.Node)) → Gather Settings
  | [] => return s
  | entries :: rest => do
    if ← noteDuplicates entries then
      let (s, seen) ← s.setAll true seen entries
      s.setMerged seen rest
    else s.setMerged seen rest

/-- The settings that a document gives over others. -/
def ofDocument (s : Settings) : Yaml.Node → Gather Settings
  | .mapping _ _ entries => do
    if !(← noteDuplicates entries) then return s
    let (s, seen) ← s.setAll false [] entries
    match (entries.filter fun e => isMerge e.1).getLast? with
    | none => return s
    | some (_, merged) =>
      match mergedMappings merged with
      | none => throw { cause := .mergeOfNoMapping }
      | some all => s.setMerged seen all
  | .scalar line isPlain tag value => do
    if (← Yaml.meaning isPlain tag value) ≠ .null then
      noteNode (.scalar line isPlain tag value) settingsName
    return s
  | n => do
    noteNode n settingsName
    return s

/-! ## Loading -/

/-- Why settings cannot be loaded. -/
inductive LoadProblem where
  | unreadable (path : Text) (problem : FileProblem)
  | malformed (path : Text) (problem : Yaml.Malformed)
  | misfits (path : Text) (all : List Misfit)
  | invalid (path : Text) (problem : Invalid)

/-- The wording of why settings cannot be loaded. -/
def LoadProblem.message : LoadProblem → Text
  | .unreadable path .directory =>
    text "config: parse " ++ path ++ text ": yaml: input error: "
      ++ FileProblem.message path .directory
  | .unreadable path problem =>
    text "config: open " ++ path ++ text ": " ++ problem.message path
  | .malformed path problem => text "config: parse " ++ path ++ text ": " ++ problem.message
  | .misfits path all =>
    text "config: parse " ++ path ++ text ": yaml: unmarshal errors:"
      ++ all.flatMap fun m => text "\n  " ++ m.message
  | .invalid path problem => text "config: " ++ path ++ text ": " ++ problem.message

/-- The settings in the contents of a file. -/
def ofFile (path contents : Text) : Except LoadProblem Settings :=
  let document := do
    match ← Yaml.root? contents with
    | none => return (({} : Settings), [])
    | some root => (ofDocument {} root).run []
  match document with
  | .error problem => .error (.malformed path problem)
  | .ok (s, misfits) =>
    if misfits.isEmpty then
      match s.invalid? with
      | some problem => .error (.invalid path problem)
      | none => .ok { s with path }
    else .error (.misfits path misfits)

/-- The name of the file with the settings in the home directory. -/
def homeFile : Text :=
  text ".monkey.yaml"

/-- Load settings from a named file or, if the name is empty, from the home directory, which is
unknown if it is empty. -/
def load (read : Text → Except FileProblem Text) (home path : Text) :
    Except LoadProblem Settings :=
  if path.isEmpty then
    if home.isEmpty then .ok {}
    else
      let path := Path.join home homeFile
      match read path with
      | .error .missing => .ok {}
      | .error problem => .error (.unreadable path problem)
      | .ok contents => ofFile path contents
  else match read path with
    | .error problem => .error (.unreadable path problem)
    | .ok contents => ofFile path contents

end Settings

end Monkey
