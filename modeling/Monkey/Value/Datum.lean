import Monkey.Value.Basic

/-!
# Values written down

A datum is a value without functions and without identities, such as a caller hands in. Building it
gives every array, hash and return wrapper in it an identity of its own.
-/

namespace Monkey

/-- A value written down. -/
inductive Datum where
  | int (n : Int64)
  | str (t : Text)
  | bool (b : Bool)
  | null
  | array (items : List Datum)
  | hash (pairs : List (Datum × Datum))
  | error (message : Text)
  | returned (value : Datum)
  deriving Inhabited

namespace Datum

/-- The next identity that was not given yet. -/
def fresh : StateM Ref Ref :=
  modifyGet fun r => (r, r + 1)

mutual

/-- The value of a datum. -/
def build : Datum → StateM Ref Value
  | .int n => return .int n
  | .str t => return .str t
  | .bool b => return .bool b
  | .null => return .null
  | .array items => return .array (← fresh) (← buildItems items)
  | .hash pairs => return .hash (← fresh) (← buildPairs pairs [])
  | .error message => return .error (.custom message)
  | .returned value => return .returned (← fresh) (← value.build)

/-- The values of data. -/
def buildItems : List Datum → StateM Ref (List Value)
  | [] => return []
  | d :: rest => return (← d.build) :: (← buildItems rest)

/-- Store pairs in a table, one after the other. A pair whose first part cannot be a key is left
out. -/
def buildPairs : List (Datum × Datum) → Table Value → StateM Ref (Table Value)
  | [], table => return table
  | (k, v) :: rest, table => do
    let key ← k.build
    let value ← v.build
    match key.key? with
    | some key => buildPairs rest (table.insert key value)
    | none => buildPairs rest table

end

end Datum

end Monkey
