import Mathlib.Data.List.Basic
import Monkey.Proofs.Tables

/-!
# What a table stores, and in which order

A table answers two questions: which pair is stored under a hash key, and in which order hash keys
were first stored. A ledger keeps the two answers apart, as a map and a list that are each updated
when a pair is stored. Nothing but the way they are updated holds them together: a hash key is put
at the end of the list if the map has nothing under it, and then the map is changed there.
`Ledger.InStep` is what storing keeps (`Ledger.InStep.set`), so it holds after any sequence of pairs
(`Ledger.inStep_ofSets`), also when two keys share a hash key and one takes the place of the other.

A table has both answers in one list, and inserting into it does to them what storing does to a
ledger (`Table.ledger_insert`).
-/

namespace Monkey

/-- The two sides of a table: the pair that is stored under each hash key, and the hash keys in the
order in which they were first stored. -/
structure Ledger (α : Type) where
  pairs : HashKey → Option (Key × α)
  order : List HashKey

/-- A pair of a table as people see it. -/
def inspectPair (p : Key × Value) : Text :=
  p.1.inspect ++ text ": " ++ p.2.inspect

/-- Where the first of some pairs with a hash key stands. -/
def firstSet {α : Type} (h : HashKey) (sets : List (Key × α)) : Nat :=
  (sets.map fun s => s.1.hashKey).idxOf h

/-- The last of some pairs with a hash key. -/
def lastSetAt {α : Type} (h : HashKey) (sets : List (Key × α)) : Option (Key × α) :=
  sets.reverse.find? fun s => s.1.hashKey = h

namespace Ledger

variable {α : Type}

/-- Nothing is stored. -/
def empty : Ledger α :=
  ⟨fun _ => none, []⟩

/-- Store a pair. A hash key that is new is put at the end of the order. -/
def set (k : Key) (v : α) (l : Ledger α) : Ledger α where
  pairs h := if h = k.hashKey then some (k, v) else l.pairs h
  order := if (l.pairs k.hashKey).isSome then l.order else l.order ++ [k.hashKey]

/-- The ledger after pairs are stored one after the other. -/
def ofSets (sets : List (Key × α)) : Ledger α :=
  sets.foldl (fun l s => l.set s.1 s.2) empty

/-- The stored pairs as people see them, in order. -/
def inspect (l : Ledger Value) : Text :=
  listed (text "\x7b") (l.order.map fun h => ((l.pairs h).map inspectPair).getD []) (text "\x7d")

theorem ofSets_concat (sets : List (Key × α)) (k : Key) (v : α) :
    ofSets (sets ++ [(k, v)]) = (ofSets sets).set k v := by
  rw [ofSets, List.foldl_append]
  rfl

/-! ## The two sides are in step -/

/-- A ledger is as it should be after some pairs were stored: the hash keys in its order are those
with a pair, and they stand in the order of their first pairs; and stored under each is its last
pair. -/
structure InStep (sets : List (Key × α)) (l : Ledger α) : Prop where
  mem_order (h : HashKey) : h ∈ l.order ↔ (l.pairs h).isSome = true
  byFirstSet : l.order.Pairwise fun a b => firstSet a sets < firstSet b sets
  pairs (h : HashKey) : l.pairs h = lastSetAt h sets

end Ledger

section Sets

variable {α : Type} {sets : List (Key × α)} {h : HashKey}

theorem lastSetAt_concat (h : HashKey) (sets : List (Key × α)) (k : Key) (v : α) :
    lastSetAt h (sets ++ [(k, v)]) = if h = k.hashKey then some (k, v) else lastSetAt h sets := by
  rw [lastSetAt, List.reverse_append]
  show ((k, v) :: sets.reverse).find? (fun s => s.1.hashKey = h) = _
  rw [List.find?_cons]
  by_cases heq : h = k.hashKey
  · rw [if_pos heq, decide_eq_true heq.symm]
  · rw [if_neg heq, decide_eq_false (Ne.symm heq)]
    rfl

/-- The last pair with a hash key has a key with that hash key. -/
theorem hashKey_of_lastSetAt {p : Key × α} (hp : p ∈ lastSetAt h sets) : p.1.hashKey = h := by
  have hfound : decide (p.1.hashKey = h) = true :=
    List.find?_some (p := fun s : Key × α => decide (s.1.hashKey = h)) hp
  exact of_decide_eq_true hfound

/-- A hash key has a last pair just if there is a pair with it. -/
theorem isSome_lastSetAt :
    (lastSetAt h sets).isSome = true ↔ h ∈ sets.map fun s => s.1.hashKey := by
  rw [lastSetAt, List.find?_isSome, List.mem_map]
  refine exists_congr fun s => ?_
  rw [List.mem_reverse, decide_eq_true_iff]

/-- More pairs do not change where the first one stands. -/
theorem firstSet_concat_of_mem (hmem : h ∈ sets.map fun s => s.1.hashKey) (s : Key × α) :
    firstSet h (sets ++ [s]) = firstSet h sets := by
  rw [firstSet, List.map_append, List.idxOf_append_of_mem hmem]
  rfl

/-- The first pair with a new hash key stands after all others. -/
theorem firstSet_concat_of_notMem {k : Key} (v : α)
    (hnew : k.hashKey ∉ sets.map fun s => s.1.hashKey) :
    firstSet k.hashKey (sets ++ [(k, v)]) = sets.length := by
  rw [firstSet, List.map_append, List.idxOf_append_of_notMem hnew]
  show _ + [k.hashKey].idxOf k.hashKey = _
  rw [List.idxOf_cons_self, List.length_map, Nat.add_zero]

theorem firstSet_lt (hmem : h ∈ sets.map fun s => s.1.hashKey) : firstSet h sets < sets.length := by
  have hlt := List.idxOf_lt_length_of_mem hmem
  rw [List.length_map] at hlt
  exact hlt

end Sets

namespace Ledger

variable {α : Type} {sets : List (Key × α)} {l : Ledger α}

theorem InStep.empty : (empty : Ledger α).InStep [] where
  mem_order _ := ⟨fun h => absurd h List.not_mem_nil, nofun⟩
  byFirstSet := .nil
  pairs _ := rfl

/-- The order lists the hash keys of the pairs. -/
theorem InStep.mem_order_iff (h : l.InStep sets) (a : HashKey) :
    a ∈ l.order ↔ a ∈ sets.map fun s => s.1.hashKey := by
  rw [h.mem_order, h.pairs, isSome_lastSetAt]

/-- The hash keys in the order stay in the order of their first pairs when another pair is
stored. -/
theorem InStep.byFirstSet_concat (h : l.InStep sets) (s : Key × α) :
    l.order.Pairwise fun a b => firstSet a (sets ++ [s]) < firstSet b (sets ++ [s]) := by
  refine h.byFirstSet.imp_of_mem fun ha hb hlt => ?_
  rw [firstSet_concat_of_mem ((h.mem_order_iff _).mp ha),
    firstSet_concat_of_mem ((h.mem_order_iff _).mp hb)]
  exact hlt

/-- **Storing a pair keeps the two sides in step.** -/
theorem InStep.set (h : l.InStep sets) (k : Key) (v : α) :
    (l.set k v).InStep (sets ++ [(k, v)]) := by
  have hpairs (a : HashKey) : (l.set k v).pairs a = lastSetAt a (sets ++ [(k, v)]) := by
    rw [lastSetAt_concat, ← h.pairs]
    rfl
  have hsome (a : HashKey) : ((l.set k v).pairs a).isSome = true ↔
      a = k.hashKey ∨ (l.pairs a).isSome = true := by
    show (if a = k.hashKey then some (k, v) else l.pairs a).isSome = true ↔ _
    by_cases ha : a = k.hashKey <;> simp [ha]
  by_cases hold : (l.pairs k.hashKey).isSome = true
  · -- a hash key that is there keeps its place, whatever key it is stored with
    have horder : (l.set k v).order = l.order := if_pos hold
    refine ⟨fun a => ?_, horder ▸ h.byFirstSet_concat (k, v), hpairs⟩
    rw [horder, h.mem_order, hsome]
    exact ⟨.inr, fun ha => ha.elim (fun heq => heq ▸ hold) id⟩
  · -- a new one comes last, and so does its first pair
    have horder : (l.set k v).order = l.order ++ [k.hashKey] := if_neg hold
    refine ⟨fun a => ?_, ?_, hpairs⟩
    · rw [horder, List.mem_append, List.mem_singleton, h.mem_order, hsome]
      exact Or.comm
    · have hnew : k.hashKey ∉ sets.map fun s => s.1.hashKey := by
        rw [← h.mem_order_iff, h.mem_order]
        exact hold
      rw [horder, List.pairwise_append]
      refine ⟨h.byFirstSet_concat (k, v), List.pairwise_singleton _ _, fun a ha b hb => ?_⟩
      have hmem := (h.mem_order_iff a).mp ha
      rw [List.mem_singleton.mp hb, firstSet_concat_of_notMem v hnew, firstSet_concat_of_mem hmem]
      exact firstSet_lt hmem

/-- After any pairs the two sides are in step. -/
theorem inStep_ofSets (sets : List (Key × α)) : (ofSets sets).InStep sets := by
  induction sets using List.reverseRecOn with
  | nil => exact .empty
  | append_singleton sets s ih =>
      rw [ofSets_concat]
      exact ih.set s.1 s.2

theorem InStep.nodup (h : l.InStep sets) : l.order.Nodup :=
  h.byFirstSet.imp fun hlt heq => absurd (heq ▸ hlt) (Nat.lt_irrefl _)

end Ledger

/-! ## The two sides of a table -/

namespace Table

variable {α : Type}

/-- The two sides of a table. -/
def ledger (t : Table α) : Ledger α :=
  ⟨t.pair?, t.order⟩

theorem order_insert (k : Key) (v : α) (t : Table α) :
    (t.insert k v).order =
      if (t.pair? k.hashKey).isSome then t.order else t.order ++ [k.hashKey] := by
  induction t with
  | nil => rfl
  | cons first rest ih =>
      by_cases hfirst : first.1.hashKey = k.hashKey
      · rw [insert, if_pos hfirst, pair?_cons, if_pos hfirst]
        show k.hashKey :: order rest = first.1.hashKey :: order rest
        rw [hfirst]
      · rw [insert, if_neg hfirst, pair?_cons, if_neg hfirst]
        show first.1.hashKey :: order (insert k v rest) = _
        rw [ih]
        split <;> rfl

/-- Inserting into a table stores in its ledger. -/
theorem ledger_insert (k : Key) (v : α) (t : Table α) :
    (t.insert k v).ledger = t.ledger.set k v := by
  show Ledger.mk _ _ = Ledger.mk _ _
  rw [order_insert]
  congr 1
  funext h
  exact pair?_insert h k v t

/-- The two sides of a table are a ledger in which the same was stored. -/
theorem ledger_ofSets (sets : List (Key × α)) : (ofSets sets).ledger = Ledger.ofSets sets := by
  induction sets using List.reverseRecOn with
  | nil => rfl
  | append_singleton sets s ih =>
      rw [ofSets_concat, Ledger.ofSets_concat, ledger_insert, ih]

/-- A table without duplicates has the pairs under its hash keys, in order. -/
theorem map_pair?_order {t : Table α} (h : t.order.Nodup) : t.order.map t.pair? = t.map some := by
  have hpair : ∀ entry ∈ t, t.pair? entry.1.hashKey = some entry := by
    induction t with
    | nil => exact fun _ hmem => absurd hmem List.not_mem_nil
    | cons first rest ih =>
        obtain ⟨hnew, hrest⟩ := List.nodup_cons.mp h
        refine List.forall_mem_cons.mpr ⟨?_, fun entry hmem => ?_⟩
        · rw [pair?_cons, if_pos rfl]
        · have hne : first.1.hashKey ≠ entry.1.hashKey := by
            intro heq
            have horder : entry.1.hashKey ∈ order rest := List.mem_map_of_mem hmem
            rw [← heq] at horder
            exact hnew horder
          rw [pair?_cons, if_neg hne]
          exact ih hrest entry hmem
  rw [order, List.map_map]
  exact List.map_congr_left hpair

theorem nodup_order_ofSets (sets : List (Key × α)) : (ofSets sets).order.Nodup := by
  have horder : (ofSets sets).order = (Ledger.ofSets sets).order :=
    congrArg Ledger.order (ledger_ofSets sets)
  rw [horder]
  exact (Ledger.inStep_ofSets sets).nodup

end Table

theorem inspectEntries_eq_map (t : Table Value) : Value.inspectEntries t = t.map inspectPair := by
  induction t with
  | nil => rfl
  | cons first rest ih => exact congrArg (inspectPair first :: ·) ih

/-- People see of a hash what they see of its ledger. -/
theorem inspect_hash_eq {t : Table Value} (h : t.order.Nodup) (ref : Ref) :
    (Value.hash ref t).inspect = t.ledger.inspect := by
  have hparts :
      t.order.map (fun h => ((t.pair? h).map inspectPair).getD []) = t.map inspectPair := by
    have hmap := congrArg (List.map fun p? : Option (Key × Value) => (p?.map inspectPair).getD [])
      (Table.map_pair?_order h)
    rw [List.map_map, List.map_map] at hmap
    exact hmap
  show listed _ (Value.inspectEntries t) _ = listed _ _ _
  rw [inspectEntries_eq_map, ← hparts]
  rfl

/-- **A table keeps its pairs and their order in step.** Let pairs be stored one after the other, in
an order and a map that are updated separately. Then the order has no duplicates; it lists exactly
the hash keys that the map has a pair under, in the order of their first pairs; and the map has
under each hash key the last pair that was stored with it, whose key has that hash key. The table
after the same insertions has this order and these pairs, and lists each of the pairs once. So what
is found under a key is the value that was stored last under its hash key, and people see each pair
once, in order. Different integers, different booleans and keys of different types have different
hash keys. -/
theorem table_keeps_order_and_pairs (sets : List (Key × Value)) :
    let t := Table.ofSets sets
    let l := Ledger.ofSets sets
    (l.order.Nodup ∧ (∀ h, h ∈ l.order ↔ (l.pairs h).isSome = true) ∧
      l.order.Pairwise (fun a b => firstSet a sets < firstSet b sets) ∧
      (∀ h, l.pairs h = lastSetAt h sets) ∧ ∀ h, ∀ p ∈ l.pairs h, p.1.hashKey = h) ∧
    (t.order = l.order ∧ l.order.map l.pairs = t.map some ∧
      (∀ k : Key, t.find? k = (lastSetAt k.hashKey sets).map Prod.snd) ∧
      ∀ ref, (Value.hash ref t).inspect = l.inspect) ∧
    (∀ n m : Int64, n ≠ m → (Key.int n).hashKey ≠ (Key.int m).hashKey) ∧
    (∀ a b : Bool, a ≠ b → (Key.bool a).hashKey ≠ (Key.bool b).hashKey) ∧
    ∀ k k' : Key, k.tag ≠ k'.tag → k.hashKey ≠ k'.hashKey := by
  intro t l
  have hstep := Ledger.inStep_ofSets sets
  -- the table is seen as the pair of an order and a map, and both are made by the same sets
  have hledger : t.ledger = l := Table.ledger_ofSets sets
  have hnodup : t.order.Nodup := Table.nodup_order_ofSets sets
  refine ⟨⟨hstep.nodup, hstep.mem_order, hstep.byFirstSet, hstep.pairs, fun h p hp => ?_⟩,
    ⟨congrArg Ledger.order hledger, ?_, fun k => ?_, fun ref => ?_⟩, ?_, ?_, ?_⟩
  · rw [hstep.pairs] at hp
    exact hashKey_of_lastSetAt hp
  · rw [← hledger]
    exact Table.map_pair?_order hnodup
  · rw [Table.find?_eq_pair?, ← hstep.pairs]
    exact congrArg (fun l : Ledger Value => (l.pairs k.hashKey).map Prod.snd) hledger
  · rw [← hledger]
    exact inspect_hash_eq hnodup ref
  · exact fun n m hne heq => hne (Key.int_inj_of_hashKey heq)
  · exact fun a b hne heq => hne (Key.bool_inj_of_hashKey heq)
  · exact fun k k' hne heq => hne (congrArg HashKey.tag heq)

/-- Two strings that share a hash key, with another key between them: the second string takes the
place of the first, at the position of the first. -/
theorem table_keeps_order_and_pairs_clash :
    let sets : List (Key × Value) :=
      [(.str (text "7mohtcOFVz"), .int 1), (.int 5, .int 2), (.str (text "c1E51sSEyx"), .int 3)]
    (5 : Int64) ≠ 2 ∧ (Key.int 5).hashKey ≠ (Key.int 2).hashKey ∧
      (Value.hash 0 (Table.ofSets sets)).inspect = text "\x7bc1E51sSEyx: 3, 5: 2\x7d" := by
  intro sets
  obtain ⟨-, ⟨-, -, -, hinspect⟩, hint, -⟩ := table_keeps_order_and_pairs sets
  have hshown : (Ledger.ofSets sets).inspect = text "\x7bc1E51sSEyx: 3, 5: 2\x7d" := by
    decide +kernel
  exact ⟨by decide, hint 5 2 (by decide), (hinspect 0).trans hshown⟩

end Monkey
