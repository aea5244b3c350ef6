import Mathlib.Data.List.Induction
import Monkey.Value.Basic

/-!
# Tables as finite maps

A table looks a key up by its type and its 64-bit code. Integers and booleans have codes of their
own, so for them a table is a finite map: under a key is what was last stored under that key.
Strings may share a code. A string that does so with another takes its place, and is found in its
place.

So a table behaves as a finite map at a key, after each of a sequence of insertions and whatever is
inserted, exactly if no key is inserted that clashes with it (`table_is_map_iff`). Two strings of
ten letters and digits that clash are known (`clashing_string_found`).
-/

namespace Monkey

/-- Two keys are different, but a table cannot tell them apart. -/
def Key.Clashes (k k' : Key) : Prop :=
  k ≠ k' ∧ k.hashKey = k'.hashKey

instance (k k' : Key) : Decidable (k.Clashes k') :=
  inferInstanceAs (Decidable (_ ∧ _))

theorem Key.int_inj_of_hashKey {n m : Int64} (h : (Key.int n).hashKey = (Key.int m).hashKey) :
    n = m := by
  have hcode : n.toUInt64 = m.toUInt64 := congrArg HashKey.code h
  cases n
  cases m
  exact congrArg Int64.ofUInt64 hcode

theorem Key.bool_inj_of_hashKey {a b : Bool} (h : (Key.bool a).hashKey = (Key.bool b).hashKey) :
    a = b := by
  revert h
  cases a <;> cases b <;> decide

/-- Only strings clash, and they do if they have the same code. -/
theorem Key.clashes_iff (k k' : Key) :
    k.Clashes k' ↔ ∃ s t : Text, k = .str s ∧ k' = .str t ∧ s ≠ t ∧ s.code = t.code := by
  constructor
  · rintro ⟨hne, hkey⟩
    -- keys of different types have different tags, so both are of one type
    have htag : k.tag = k'.tag := congrArg HashKey.tag hkey
    cases k with
    | int n =>
        cases k' with
        | int m => exact absurd (congrArg Key.int (int_inj_of_hashKey hkey)) hne
        | bool b => cases htag
        | str t => cases htag
    | bool a =>
        cases k' with
        | int m => cases htag
        | bool b => exact absurd (congrArg Key.bool (bool_inj_of_hashKey hkey)) hne
        | str t => cases htag
    | str s =>
        cases k' with
        | int m => cases htag
        | bool b => cases htag
        | str t =>
          have hst : s ≠ t := fun h => hne (congrArg Key.str h)
          exact ⟨s, t, rfl, rfl, hst, congrArg HashKey.code hkey⟩
  · rintro ⟨s, t, rfl, rfl, hne, hcode⟩
    exact ⟨fun h => hne (Key.str.inj h), congrArg (HashKey.mk .string) hcode⟩

namespace Table

variable {α : Type}

/-- The table after values are stored in an empty one, one after the other. -/
def ofSets (sets : List (Key × α)) : Table α :=
  sets.foldl (fun t s => t.insert s.1 s.2) []

/-- The value that was stored last under a key itself. -/
def lastSet (k : Key) (sets : List (Key × α)) : Option α :=
  sets.reverse.lookup k

theorem ofSets_concat (sets : List (Key × α)) (k : Key) (v : α) :
    ofSets (sets ++ [(k, v)]) = (ofSets sets).insert k v := by
  rw [ofSets, List.foldl_append]
  rfl

theorem lastSet_concat (k k' : Key) (v : α) (sets : List (Key × α)) :
    lastSet k (sets ++ [(k', v)]) = if k' = k then some v else lastSet k sets := by
  rw [lastSet, List.reverse_append]
  show ((k', v) :: sets.reverse).lookup k = _
  by_cases h : k' = k
  · rw [if_pos h, h, List.lookup_cons, beq_self_eq_true]
  · rw [if_neg h, List.lookup_cons, beq_false_of_ne (Ne.symm h)]
    rfl

/-- The pair that is stored under a hash key. -/
def pair? (h : HashKey) (t : Table α) : Option (Key × α) :=
  List.find? (fun entry => entry.1.hashKey = h) t

theorem pair?_cons (h : HashKey) (first : Key × α) (rest : Table α) :
    Table.pair? h (first :: rest) = if first.1.hashKey = h then some first else rest.pair? h := by
  rw [pair?, List.find?_cons]
  by_cases heq : first.1.hashKey = h
  · rw [if_pos heq, decide_eq_true heq]
  · rw [if_neg heq, decide_eq_false heq]
    rfl

/-- What is found under a key is the value of the pair under its hash key. -/
theorem find?_eq_pair? (k : Key) (t : Table α) :
    t.find? k = (t.pair? k.hashKey).map Prod.snd := by
  induction t with
  | nil => rfl
  | cons first rest ih =>
      rw [find?, pair?_cons, ih]
      split <;> rfl

/-- An insertion changes the pair under the hash key of what is inserted, and no other. -/
theorem pair?_insert (h : HashKey) (k : Key) (v : α) (t : Table α) :
    (t.insert k v).pair? h = if h = k.hashKey then some (k, v) else t.pair? h := by
  induction t with
  | nil =>
      rw [insert, pair?_cons]
      exact if_congr eq_comm rfl rfl
  | cons first rest ih =>
      by_cases hfirst : first.1.hashKey = k.hashKey
      · -- the entry is replaced: only its key decides what is found
        rw [insert, if_pos hfirst, pair?_cons, pair?_cons, hfirst]
        by_cases hk : k.hashKey = h
        · rw [if_pos hk, if_pos hk.symm]
        · rw [if_neg hk, if_neg hk, if_neg (Ne.symm hk)]
      · rw [insert, if_neg hfirst, pair?_cons, pair?_cons, ih]
        by_cases hk : first.1.hashKey = h
        · rw [if_pos hk, if_pos hk, if_neg fun heq => hfirst (hk.trans heq)]
        · rw [if_neg hk, if_neg hk]

/-- What is found after one insertion: the new value if the table cannot tell the keys apart, and
else what was found before. -/
theorem find?_insert (k k' : Key) (v : α) (t : Table α) :
    (t.insert k' v).find? k = if k'.hashKey = k.hashKey then some v else t.find? k := by
  rw [find?_eq_pair?, pair?_insert, find?_eq_pair?]
  by_cases hk : k'.hashKey = k.hashKey
  · rw [if_pos hk.symm, if_pos hk]
    rfl
  · rw [if_neg (Ne.symm hk), if_neg hk]

/-- Without clashes, what is found under a key is what was last stored under it. -/
theorem find?_ofSets {k : Key} {sets : List (Key × α)} (h : ∀ s ∈ sets, ¬ s.1.Clashes k) :
    (ofSets sets).find? k = lastSet k sets := by
  induction sets using List.reverseRecOn with
  | nil => rfl
  | append_singleton sets last ih =>
      obtain ⟨hsets, hlast⟩ := List.forall_mem_append.mp h
      have hiff : last.1.hashKey = k.hashKey ↔ last.1 = k := by
        constructor
        · intro hkey
          by_cases heq : last.1 = k
          · exact heq
          · exact absurd ⟨heq, hkey⟩ (hlast last List.mem_cons_self)
        · exact congrArg Key.hashKey
      rw [ofSets_concat, lastSet_concat, find?_insert, ih hsets]
      exact if_congr hiff rfl rfl

/-- Of two keys that clash, the first is found under the second before that is inserted, and is lost
once it is. -/
theorem found_of_clashes {k k' : Key} (h : k.Clashes k') (v v' : α) :
    (ofSets [(k, v)]).find? k' = some v ∧ lastSet k' [(k, v)] = none ∧
    (ofSets [(k, v), (k', v')]).find? k = some v' ∧ lastSet k [(k, v), (k', v')] = some v := by
  have hfirst : lastSet k [(k, v)] = some v := (lastSet_concat k k v []).trans (if_pos rfl)
  refine ⟨?_, ?_, ?_, ?_⟩
  · exact (find?_insert k' k v []).trans (if_pos h.2)
  · exact (lastSet_concat k' k v []).trans (if_neg h.1)
  · exact (find?_insert k k' v' _).trans (if_pos h.2.symm)
  · exact (lastSet_concat k k' v' [(k, v)]).trans ((if_neg h.1.symm).trans hfirst)

end Table

/-- **A table is a finite map just where no keys clash.** Let keys be inserted into an empty table
in a given order, and stop after any of them. What is found under a key is always what was last
inserted under this very key, or nothing if it was not inserted, whatever the values are, exactly if
none of the keys clashes with it. A single insertion into any table leaves what is found under a key
unchanged, whatever is inserted, exactly if it is of another key that does not clash. What clashes
are different strings that have the same code, so integers and booleans never do. -/
theorem table_is_map_iff (keys : List Key) (k : Key) :
    ((∀ sets : List (Key × Value), sets.map Prod.fst <+: keys →
        (Table.ofSets sets).find? k = Table.lastSet k sets) ↔ ∀ k' ∈ keys, ¬ k'.Clashes k) ∧
    (∀ (k' : Key) (t : Table Value),
      (∀ v, (t.insert k' v).find? k = t.find? k) ↔ k' ≠ k ∧ ¬ k'.Clashes k) ∧
    ∀ k' : Key, k'.Clashes k ↔
      ∃ s t : Text, k' = .str s ∧ k = .str t ∧ s ≠ t ∧ s.code = t.code := by
  refine ⟨⟨fun h k' hk' hclash => ?_, fun h sets hsets => ?_⟩,
    fun k' t => ⟨fun h => ?_, ?_⟩, fun k' => k'.clashes_iff k⟩
  · -- stop after the key that clashes, and give it a value that no other key has
    obtain ⟨before, after, rfl⟩ := List.append_of_mem hk'
    let earlier : List (Key × Value) := before.map fun key => (key, .null)
    have hkeys : (earlier ++ [(k', Value.bool true)]).map Prod.fst <+: before ++ k' :: after := by
      refine ⟨after, ?_⟩
      simp [earlier, Function.comp_def]
    have hfound := h _ hkeys
    rw [Table.ofSets_concat, Table.find?_insert, if_pos hclash.2, Table.lastSet_concat,
      if_neg hclash.1] at hfound
    obtain ⟨l, l', hsplit, -⟩ := List.lookup_eq_some_iff.mp hfound.symm
    have hmem : (k, Value.bool true) ∈ earlier.reverse :=
      hsplit ▸ List.mem_append_right l List.mem_cons_self
    obtain ⟨key, -, heq⟩ := List.mem_map.mp (List.mem_reverse.mp hmem)
    cases heq
  · refine Table.find?_ofSets fun s hs => ?_
    exact h s.1 (hsets.subset (List.mem_map_of_mem hs))
  · -- two values that are inserted cannot both be what was found before
    have hkey : k'.hashKey ≠ k.hashKey := by
      intro hkey
      have htrue := h (.bool true)
      rw [← h .null, Table.find?_insert, Table.find?_insert, if_pos hkey, if_pos hkey] at htrue
      cases htrue
    exact ⟨fun heq => hkey (congrArg Key.hashKey heq), fun hclash => hkey hclash.2⟩
  · rintro ⟨hne, hclash⟩ v
    rw [Table.find?_insert, if_neg fun hkey => hclash ⟨hne, hkey⟩]

/-- Two strings of ten letters and digits that have the same code: the first is found under the
second, which was never inserted, and once the second is inserted, what was stored under the first
is lost. -/
theorem clashing_string_found :
    let first := Key.str (text "7mohtcOFVz")
    let second := Key.str (text "c1E51sSEyx")
    first.Clashes second ∧
    (Table.ofSets [(first, Value.int 1)]).find? second = some (.int 1) ∧
    Table.lastSet second [(first, Value.int 1)] = none ∧
    (Table.ofSets [(first, Value.int 1), (second, .int 2)]).find? first = some (.int 2) ∧
    Table.lastSet first [(first, Value.int 1), (second, .int 2)] = some (.int 1) := by
  have hclash : (Key.str (text "7mohtcOFVz")).Clashes (.str (text "c1E51sSEyx")) := by
    decide +kernel
  exact ⟨hclash, Table.found_of_clashes hclash (Value.int 1) (.int 2)⟩

end Monkey
