import Mathlib.Data.List.Forall2
import Mathlib.Data.List.Induction
import Monkey.Proofs.Inside
import Monkey.Proofs.Numerals
import Monkey.Proofs.RoundTrip
import Monkey.Proofs.TableOrder
import Monkey.Proofs.Yields

/-!
# Plain data reads back

What people see of plain data is a program. It is read as an expression that makes the data again,
with new identities: a negative number as a sign before a numeral, an array as its elements, a hash
as its pairs in order. The one exception is the smallest integer, whose numeral without the sign is
too large to be read.

`Value.Written` ties a value to a phrase: the text of the value is scanned as what the phrase
derives, the numerals of the phrase fit unless the smallest integer is in the value, and any
expression with the tree of the phrase yields the value up to identities. Every constructor of plain
data keeps it, so all plain data is written by a phrase (`Value.Plain.exists_written`).
-/

namespace Monkey

open Grammar

/-! ## Plain data -/

/-- Values made of integers, booleans, arrays, and hashes. The keys of a hash are integers and
booleans, and it is made by storing pairs one after the other. -/
inductive Value.Plain : Value → Prop
  | int (n : Int64) : Plain (.int n)
  | bool (b : Bool) : Plain (.bool b)
  | array (ref : Ref) {items : List Value} : (∀ v ∈ items, Plain v) → Plain (.array ref items)
  | hash (ref : Ref) {sets : List (Key × Value)} : (∀ s ∈ sets, s.1.tag ≠ .string) →
      (∀ s ∈ sets, Plain s.2) → Plain (.hash ref (Table.ofSets sets))

/-- The integer that a key is, if it is one. -/
def Key.integers : Key → List Int64
  | .int n => [n]
  | .bool _ | .str _ => []

mutual

/-- The integers in a value, with those among the keys of its hashes. -/
def Value.integers : Value → List Int64
  | .int n => [n]
  | .array _ items => itemIntegers items
  | .hash _ entries => entryIntegers entries
  | .returned _ value => value.integers
  | .str _ | .bool _ | .null | .fn _ _ _ _ | .builtin _ | .error _ => []

/-- The integers in some values. -/
def itemIntegers : List Value → List Int64
  | [] => []
  | v :: rest => v.integers ++ itemIntegers rest

/-- The integers in the keys and values of a table. -/
def entryIntegers : Table Value → List Int64
  | [] => []
  | (key, v) :: rest => key.integers ++ (v.integers ++ entryIntegers rest)

end

mutual

/-- A value with the identities in it forgotten. Values that are the same then have the same
structure. -/
def Value.unnamed : Value → Value
  | .array _ items => .array 0 (unnamedItems items)
  | .hash _ entries => .hash 0 (unnamedEntries entries)
  | .fn _ params body scope => .fn 0 params body scope
  | .returned _ value => .returned 0 value.unnamed
  | .int n => .int n
  | .str t => .str t
  | .bool b => .bool b
  | .null => .null
  | .builtin function => .builtin function
  | .error fault => .error fault

/-- Values with the identities in them forgotten. -/
def unnamedItems : List Value → List Value
  | [] => []
  | v :: rest => v.unnamed :: unnamedItems rest

/-- A table with the identities in its values forgotten. -/
def unnamedEntries : Table Value → Table Value
  | [] => []
  | (key, v) :: rest => (key, v.unnamed) :: unnamedEntries rest

end

theorem unnamedEntries_eq_map (t : Table Value) :
    unnamedEntries t = t.map fun p => (p.1, p.2.unnamed) := by
  induction t with
  | nil => rfl
  | cons p rest ih => rw [unnamedEntries, ih, List.map_cons]

/-- The order of keys does not depend on identities. -/
theorem order_unnamedEntries (t : Table Value) : (unnamedEntries t).order = t.order := by
  rw [unnamedEntries_eq_map, Table.order, List.map_map]
  rfl

namespace Value

theorem integers_ofKey (k : Key) : (ofKey k).integers = k.integers := by
  cases k <;> rfl

theorem inspect_ofKey (k : Key) : (ofKey k).inspect = k.inspect := by
  cases k <;> rfl

theorem key?_ofKey (k : Key) : (ofKey k).key? = some k := by
  cases k <;> rfl

/-- A key has no identity. -/
theorem eq_ofKey_of_unnamed {v : Value} {k : Key} (h : v.unnamed = (ofKey k).unnamed) :
    v = ofKey k := by
  cases k <;> cases v <;> simp_all [ofKey, unnamed]

/-- Without identities a return wrapper is still one. -/
theorem isReturned_unnamed (v : Value) : v.unnamed.isReturned = v.isReturned := by
  cases v <;> rfl

/-- Plain data is no return wrapper. -/
theorem Plain.isReturned {v : Value} (h : v.Plain) : v.isReturned = false := by
  cases h <;> rfl

end Value

/-! ## Tables that are made again -/

namespace Table

/-- What a table has was set at some time. -/
theorem mem_of_mem_ofSets {sets : List (Key × Value)} {p : Key × Value} (h : p ∈ ofSets sets) :
    p ∈ sets := by
  induction sets using List.reverseRecOn with
  | nil => exact h
  | append_singleton sets last ih =>
      rw [ofSets_concat] at h
      rw [List.mem_append, List.mem_singleton]
      exact (mem_insert h).symm.imp_left ih

/-- A pair with a new hash key is put at the end. -/
theorem insert_of_not_mem {α : Type} {k : Key} {t : Table α} (h : k.hashKey ∉ t.order) (v : α) :
    t.insert k v = t ++ [(k, v)] := by
  induction t with
  | nil => rfl
  | cons p rest ih =>
      have hne := List.ne_of_not_mem_cons h
      rw [insert, if_neg hne.symm, ih (List.not_mem_of_not_mem_cons h), List.cons_append]

end Table

/-! ## Trees that have a shape -/

namespace Expr

variable {e : Expr} {o : Origin}

theorem eq_int_of_shape {n : Int64} (h : e.shape = .int o n) : ∃ o', e = .int o' n := by
  cases e <;> cases h
  exact ⟨_, rfl⟩

theorem eq_bool_of_shape {b : Bool} (h : e.shape = .bool o b) : ∃ o', e = .bool o' b := by
  cases e <;> cases h
  exact ⟨_, rfl⟩

/-- A tree that has the shape of a prefix expression is one. -/
theorem eq_unary_of_shape {op : UnaryOp} {f : Expr} (h : e.shape = .unary o op f) :
    ∃ o' e', e = .unary o' op e' ∧ e'.shape = f := by
  cases e <;> cases h
  exact ⟨_, _, rfl, rfl⟩

/-- A tree that has the shape of an array is one. -/
theorem eq_array_of_shape {fs : List Expr} (h : e.shape = .array o fs) :
    ∃ o' es, e = .array o' es ∧ shapeExprs es = fs := by
  cases e <;> cases h
  exact ⟨_, _, rfl, rfl⟩

/-- A tree that has the shape of a hash is one. -/
theorem eq_hash_of_shape {fs : List (Expr × Expr)} (h : e.shape = .hash o fs) :
    ∃ o' es, e = .hash o' es ∧ shapePairs es = fs := by
  cases e <;> cases h
  exact ⟨_, _, rfl, rfl⟩

end Expr

theorem eq_expr_of_shapeStatements {ss : List Stmt} {o : Origin} {f : Expr}
    (h : shapeStatements ss = [.expr o f]) : ∃ o' e, ss = [.expr o' e] ∧ e.shape = f := by
  cases ss with
  | nil => cases h
  | cons s rest =>
      obtain ⟨hs, hrest⟩ := List.cons.inj h
      cases rest with
      | nil =>
          cases s <;> cases hs
          exact ⟨_, _, rfl, rfl⟩
      | cons s' rest => cases hrest

/-! ## Phrases that write values -/

/-- A phrase writes a value: the text of the value is scanned as the terminals of the phrase, the
numerals of the phrase fit just if the value does not hold the smallest integer, and what has the
tree of the phrase yields the value again. -/
structure Value.Written (v : Value) (c : Phrase 1) : Prop where
  scans : ∀ rest, Apart rest → terminals (v.inspect ++ rest) = c.yield ++ terminals rest
  proper : Int64.minValue ∉ v.integers → c.Proper
  fits : (∀ t ∈ c.yield, t.Fits) → Int64.minValue ∉ v.integers
  yields : ∀ {m : Tracer} {scope : ScopeId} {e : Expr}, m.limits.steps ≤ 0 → e.shape = c.tree →
    (e.trace m scope).Yields fun u => u.unnamed = v.unnamed

/-- A pair of phrases writes a key and its value. -/
def WrittenPair (p : Key × Value) (c : Phrase 1 × Phrase 1) : Prop :=
  (Value.ofKey p.1).Written c.1 ∧ p.2.Written c.2

/-- A boolean is written by its keyword. -/
theorem exists_written_bool (b : Bool) : ∃ c, (Value.bool b).Written c := by
  obtain ⟨c, hyield, htree, hproper⟩ := Phrase.exists_lift (by decide : 1 ≤ 7) (.bool b)
  refine ⟨c, ?_, ?_, ?_, ?_⟩
  · intro rest hrest
    rw [hyield]
    cases b with
    | true => exact terminals_keyword (k := .trueWord) rfl hrest
    | false => exact terminals_keyword (k := .falseWord) rfl hrest
  · intro _
    exact hproper trivial
  · intro _
    exact List.not_mem_nil
  · intro m scope e hsteps he
    obtain ⟨o, rfl⟩ := Expr.eq_bool_of_shape (he.trans htree)
    exact .node hsteps (.pure rfl)

/-- A natural number is written by its numeral. -/
theorem exists_written_natural {n : Int64} {k : Nat} (hn : n.toInt = k) :
    ∃ c, (Value.int n).Written c := by
  obtain ⟨c, hyield, htree, hproper⟩ :=
    Phrase.exists_lift (by decide : 1 ≤ 7) (.int (Text.ofNat k))
  refine ⟨c, ?_, ?_, ?_, ?_⟩
  · intro rest hrest
    rw [hyield, Value.inspect, hn]
    exact terminals_digits (Text.ofNat_ne_nil k) (Text.all_isDigit_ofNat k) hrest
  · intro _
    refine hproper ?_
    rw [proper_ofNat_iff]
    have hlt := n.toInt_lt
    omega
  · intro _ hmem
    rw [← List.mem_singleton.mp hmem, Int64.toInt_minValue] at hn
    omega
  · intro m scope e hsteps he
    obtain ⟨o, rfl⟩ := Expr.eq_int_of_shape (he.trans htree)
    have hnumber : Int64.ofNat (Text.decimal (Text.ofNat k)) = n := by
      rw [Text.decimal_ofNat, ← Int64.ofInt_eq_ofNat, ← hn, n.ofInt_toInt]
    rw [hnumber]
    exact .node hsteps (.pure rfl)

/-- A negative number is written by a sign and a numeral. Only the numeral of the smallest integer
does not fit. -/
theorem exists_written_negative {n : Int64} {k : Nat} (hn : n.toInt = .negSucc k) :
    ∃ c, (Value.int n).Written c := by
  obtain ⟨operand, hoyield, hotree, hoproper⟩ :=
    Phrase.exists_lift (by decide : 5 ≤ 7) (.int (Text.ofNat (k + 1)))
  obtain ⟨c, hyield, htree, hproper⟩ :=
    Phrase.exists_lift (by decide : 1 ≤ 5) (.unary .minus operand)
  -- the numeral behind the sign is out of range for the smallest integer only
  have hfits : (Phrase.int (Text.ofNat (k + 1))).Proper ↔ n ≠ Int64.minValue := by
    rw [proper_ofNat_iff, Ne, ← Int64.toInt_inj, hn, Int64.toInt_minValue]
    have hle := n.le_toInt
    omega
  rw [Phrase.yield, hoyield] at hyield
  refine ⟨c, ?_, ?_, ?_, ?_⟩
  · intro rest hrest
    have hdigits := terminals_digits (Text.ofNat_ne_nil (k + 1)) (Text.all_isDigit_ofNat _) hrest
    have hstarts : starts (firstKind (terminals (Text.ofNat (k + 1) ++ rest))) = true := by
      rw [hdigits]
      rfl
    rw [hyield, Value.inspect, hn]
    show terminals (Sign.minus.op.symbol ++ Text.ofNat (k + 1) ++ rest) = _
    rw [List.append_assoc, terminals_sign .minus hstarts, hdigits]
    rfl
  · intro hmem
    refine hproper (hoproper (hfits.mpr ?_))
    rintro rfl
    exact hmem List.mem_cons_self
  · -- the numeral is the second terminal, after the sign
    intro hall hmem
    have hnumeral : Terminal.Fits ⟨.int, Text.ofNat (k + 1)⟩ := by
      refine hall _ ?_
      rw [hyield]
      exact List.mem_cons_of_mem _ List.mem_cons_self
    exact hfits.mp (hnumeral rfl) (List.mem_singleton.mp hmem).symm
  · intro m scope e hsteps he
    obtain ⟨o, e', rfl, he'⟩ := Expr.eq_unary_of_shape (he.trans htree)
    obtain ⟨o', rfl⟩ := Expr.eq_int_of_shape (he'.trans hotree)
    -- the sign is applied to the numeral when it is evaluated
    have hnumber : -Int64.ofNat (Text.decimal (Text.ofNat (k + 1))) = n := by
      rw [Text.decimal_ofNat, Int64.neg_ofNat, ← n.ofInt_toInt, hn]
      rfl
    refine .node hsteps ?_
    rw [if_neg (show ¬ (Expr.int o' _).isAbsent = true from Bool.false_ne_true)]
    refine Traced.Yields.bind (.used (.node hsteps (.pure rfl))) ?_
    rintro _ rfl
    rw [← hnumber]
    exact .pure rfl

/-- An integer is written by its digits, behind a sign if it is negative. -/
theorem exists_written_int (n : Int64) : ∃ c, (Value.int n).Written c := by
  cases hn : n.toInt with
  | ofNat k => exact exists_written_natural hn
  | negSucc k => exact exists_written_negative hn

/-! ## Arrays -/

section Arrays

variable {items : List Value} {cs : List (Phrase 1)}

/-- The elements of an array are scanned one after the other, with commas between them. -/
theorem scans_items (h : List.Forall₂ Value.Written items cs) {rest : Text} (hrest : Apart rest) :
    terminals (Text.join (text ", ") (Value.inspectItems items) ++ rest)
      = yieldList cs ++ terminals rest := by
  induction h with
  | nil => rfl
  | @cons v c items cs hv hitems ih =>
      cases hitems with
      | nil =>
          show terminals (v.inspect ++ rest) = _
          rw [hv.scans rest hrest, yieldList, yieldMore, List.append_nil]
      | cons hv' hitems =>
          simp only [Value.inspectItems] at ih ⊢
          rw [Text.join_cons_cons, List.append_assoc, List.append_assoc, hv.scans _ ?_,
            terminals_comma_space, ih]
          · simp only [yieldList, yieldMore, List.cons_append, List.append_assoc]
          · rfl

/-- If no element has the smallest integer, all numerals in what writes the elements are small
enough. -/
theorem proper_items (h : List.Forall₂ Value.Written items cs)
    (hmin : Int64.minValue ∉ itemIntegers items) : ProperList cs := by
  induction h with
  | nil => trivial
  | cons hv _ ih =>
      rw [itemIntegers, List.mem_append, not_or] at hmin
      exact ⟨hv.proper hmin.1, ih hmin.2⟩

/-- If all numerals in what writes the elements fit, no element has the smallest integer. -/
theorem fits_items (h : List.Forall₂ Value.Written items cs) (hfits : ∀ t ∈ yieldMore cs, t.Fits) :
    Int64.minValue ∉ itemIntegers items := by
  induction h with
  | nil => exact List.not_mem_nil
  | cons hv _ ih =>
      rw [yieldMore, List.forall_mem_cons, List.forall_mem_append] at hfits
      rw [itemIntegers, List.mem_append, not_or]
      exact ⟨hv.fits hfits.2.1, ih hfits.2.2⟩

/-- What writes elements is evaluated to them, up to identities. -/
theorem yields_items (h : List.Forall₂ Value.Written items cs) {m : Tracer} {scope : ScopeId}
    (hsteps : m.limits.steps ≤ 0) {es : List Expr} (hes : shapeExprs es = listTree cs) :
    (traceExprs m scope es).Yields fun us => unnamedItems us = unnamedItems items := by
  induction h generalizing es with
  | nil =>
      cases es with
      | nil => exact .pure rfl
      | cons e es => cases hes
  | cons hv _ ih =>
      cases es with
      | nil => cases hes
      | cons e es =>
          obtain ⟨he, hes⟩ := List.cons.inj hes
          -- the elements are evaluated in turn, and each is what it was up to identities
          refine (hv.yields hsteps he).used.bind ?_
          intro u hu
          refine (ih hes).bind ?_
          intro us hus
          refine .pure ?_
          rw [unnamedItems, unnamedItems, hu, hus]

/-- An array is written by what writes its elements. -/
theorem exists_written_array (ref : Ref) (h : List.Forall₂ Value.Written items cs) :
    ∃ c, (Value.array ref items).Written c := by
  obtain ⟨c, hyield, htree, hproper⟩ := Phrase.exists_lift (by decide : 1 ≤ 7) (.array cs)
  refine ⟨c, ?_, ?_, ?_, ?_⟩
  · intro rest hrest
    rw [hyield, Value.inspect, listed, Phrase.yield]
    simp only [List.append_assoc, List.cons_append, List.nil_append]
    rw [terminals_lbracket, scans_items h ?_, terminals_rbracket]
    rfl
  · intro hmin
    exact hproper (proper_items h hmin)
  · intro hfits
    rw [hyield, Phrase.yield, List.forall_mem_cons, List.forall_mem_append] at hfits
    refine fits_items h ?_
    -- after a comma, the elements derive the same as without it
    cases cs with
    | nil => exact List.forall_mem_nil _
    | cons c cs => exact List.forall_mem_cons.mpr ⟨fits_terminal Kind.noConfusion, hfits.2.1⟩
  · intro m scope e hsteps he
    obtain ⟨o, es, rfl, hes⟩ := Expr.eq_array_of_shape (he.trans htree)
    refine .node hsteps ((yields_items h hsteps hes).bind ?_)
    intro us hus
    refine Traced.Yields.fresh.bind ?_
    intro r _
    exact .pure (congrArg (Value.array 0) hus)

end Arrays

/-! ## Hashes -/

section Hashes

variable {entries : Table Value} {pairs : List (Phrase 1 × Phrase 1)}

/-- The pairs of a hash after the opening brace. -/
theorem scans_entries {p : Key × Value} {c : Phrase 1 × Phrase 1} (hp : WrittenPair p c)
    (h : List.Forall₂ WrittenPair entries pairs) {rest : Text} (hrest : Apart rest) :
    terminals (Text.join (text ", ") (Value.inspectEntries (p :: entries)) ++ rest)
      = c.1.yield ++
        Kind.colon.terminal :: (c.2.yield ++ (yieldMorePairs pairs ++ terminals rest)) := by
  induction h generalizing p c with
  | nil =>
      show terminals (p.1.inspect ++ text ": " ++ p.2.inspect ++ rest) = _
      rw [← Value.inspect_ofKey, List.append_assoc, List.append_assoc, hp.1.scans _ ?_,
        terminals_colon_space, hp.2.scans rest hrest]
      · rfl
      · rfl
  | cons hp' _ ih =>
      have hrec := ih hp'
      simp only [Value.inspectEntries] at hrec ⊢
      rw [Text.join_cons_cons, ← Value.inspect_ofKey p.1]
      simp only [List.append_assoc] at hrec ⊢
      rw [hp.1.scans _ ?_, terminals_colon_space, hp.2.scans _ ?_, terminals_comma_space, hrec]
      · simp only [yieldMorePairs, List.cons_append, List.append_assoc]
      · rfl
      · rfl

/-- If no entry has the smallest integer, all numerals in what writes the entries are small
enough. -/
theorem proper_entries (h : List.Forall₂ WrittenPair entries pairs)
    (hmin : Int64.minValue ∉ entryIntegers entries) : ProperPairs pairs := by
  induction h with
  | nil => trivial
  | cons hp _ ih =>
      rw [entryIntegers, List.mem_append, List.mem_append, not_or, not_or] at hmin
      exact ⟨hp.1.proper (by rw [Value.integers_ofKey]; exact hmin.1), hp.2.proper hmin.2.1,
        ih hmin.2.2⟩

/-- If all numerals in what writes the entries fit, no entry has the smallest integer. -/
theorem fits_entries (h : List.Forall₂ WrittenPair entries pairs)
    (hfits : ∀ t ∈ yieldMorePairs pairs, t.Fits) : Int64.minValue ∉ entryIntegers entries := by
  induction h with
  | nil => exact List.not_mem_nil
  | cons hp _ ih =>
      simp only [yieldMorePairs, List.forall_mem_cons, List.forall_mem_append] at hfits
      rw [entryIntegers, List.mem_append, List.mem_append, not_or, not_or]
      exact ⟨Value.integers_ofKey _ ▸ hp.1.fits hfits.2.1, hp.2.fits hfits.2.2.2.1,
        ih hfits.2.2.2.2⟩

/-- Pairs that are stored after others, all with different hash keys, come after them. -/
theorem yields_entries (h : List.Forall₂ WrittenPair entries pairs) {m : Tracer} {scope : ScopeId}
    (hsteps : m.limits.steps ≤ 0) {es : List (Expr × Expr)} (hes : shapePairs es = pairsTree pairs)
    (done t : Table Value) (ht : unnamedEntries t = unnamedEntries done)
    (hnodup : (Table.order (done ++ entries)).Nodup) :
    (tracePairs m scope es t).Yields fun u =>
      unnamedEntries u = unnamedEntries (done ++ entries) := by
  induction h generalizing es done t with
  | nil =>
      cases es with
      | nil => exact .pure (by rw [List.append_nil, ht])
      | cons e es => cases hes
  | @cons p c entries pairs hp _ ih =>
      cases es with
      | nil => cases hes
      | cons e es =>
          obtain ⟨he, hes⟩ := List.cons.inj hes
          obtain ⟨hkey, hvalue⟩ := Prod.mk.inj he
          refine (hp.1.yields hsteps hkey).used.bind ?_
          intro k hk
          rw [Value.eq_ofKey_of_unnamed hk, Value.key?_ofKey]
          refine (hp.2.yields hsteps hvalue).used.bind ?_
          intro u hu
          -- the hash key is not among those stored so far, so the pair goes to the end
          have hnew : p.1.hashKey ∉ t.order := by
            rw [← order_unnamedEntries, ht, order_unnamedEntries]
            rw [Table.order, List.map_append, List.nodup_append] at hnodup
            intro hmem
            exact hnodup.2.2 _ hmem _ List.mem_cons_self rfl
          have hnext : unnamedEntries (t.insert p.1 u) = unnamedEntries (done ++ [p]) := by
            rw [unnamedEntries_eq_map, unnamedEntries_eq_map] at ht
            rw [Table.insert_of_not_mem hnew, unnamedEntries_eq_map, unnamedEntries_eq_map,
              List.map_append, List.map_append, ht, List.map_singleton, List.map_singleton, hu]
          rw [List.append_cons] at hnodup ⊢
          exact ih hes (done ++ [p]) _ hnext hnodup

/-- A hash is written by what writes its keys and values. -/
theorem exists_written_hash (ref : Ref) (h : List.Forall₂ WrittenPair entries pairs)
    (hnodup : entries.order.Nodup) : ∃ c, (Value.hash ref entries).Written c := by
  -- with or without pairs, the tree is that of a hash, but the grammar has two productions for it
  have hyields {m : Tracer} {scope : ScopeId} {o : Origin} {e : Expr} (hsteps : m.limits.steps ≤ 0)
      (he : e.shape = .hash o (pairsTree pairs)) :
      (e.trace m scope).Yields fun u => u.unnamed = (Value.hash ref entries).unnamed := by
    obtain ⟨o', es, rfl, hes⟩ := Expr.eq_hash_of_shape he
    refine .node hsteps ((yields_entries h hsteps hes [] [] rfl hnodup).bind ?_)
    intro t ht
    refine Traced.Yields.fresh.bind ?_
    intro r _
    exact .pure (congrArg (Value.hash 0) ht)
  cases h with
  | nil =>
      obtain ⟨c, hyield, htree, hproper⟩ := Phrase.exists_lift (by decide : 1 ≤ 7) .emptyHash
      refine ⟨c, ?_, ?_, ?_, ?_⟩
      · intro rest _
        rw [hyield]
        show terminals (text "\x7b" ++ (text "\x7d" ++ rest)) = _
        rw [terminals_lbrace, terminals_rbrace]
        rfl
      · intro _
        exact hproper trivial
      · intro _
        exact List.not_mem_nil
      · intro m scope e hsteps he
        exact hyields hsteps (he.trans htree)
  | @cons p c entries pairs hp hentries =>
      obtain ⟨c', hyield, htree, hproper⟩ :=
        Phrase.exists_lift (by decide : 1 ≤ 7) (.hash c.1 c.2 pairs false)
      refine ⟨c', ?_, ?_, ?_, ?_⟩
      · intro rest _
        rw [hyield, Value.inspect, listed, Phrase.yield]
        simp only [List.append_assoc, List.cons_append]
        rw [terminals_lbrace, scans_entries hp hentries ?_, terminals_rbrace]
        · rfl
        · rfl
      · intro hmin
        exact hproper (proper_entries (.cons hp hentries) hmin)
      · intro hfits
        refine fits_entries (.cons hp hentries) ?_
        simp only [hyield, Phrase.yield, List.forall_mem_cons, List.forall_mem_append] at hfits
        simp only [yieldMorePairs, List.forall_mem_cons, List.forall_mem_append]
        exact ⟨fits_terminal Kind.noConfusion, hfits.2.1, hfits.2.2.1, hfits.2.2.2.1,
          hfits.2.2.2.2.1⟩
      · intro m scope e hsteps he
        exact hyields hsteps (he.trans htree)

end Hashes

/-! ## Reading back -/

theorem exists_forall₂ {α β : Type} {R : α → β → Prop} {l : List α} (h : ∀ a ∈ l, ∃ b, R a b) :
    ∃ l', List.Forall₂ R l l' := by
  induction l with
  | nil => exact ⟨[], .nil⟩
  | cons a l ih =>
      obtain ⟨ha, hl⟩ := List.forall_mem_cons.mp h
      obtain ⟨b, hb⟩ := ha
      obtain ⟨l', hl'⟩ := ih hl
      exact ⟨b :: l', .cons hb hl'⟩

/-- Plain data is written by a phrase. -/
theorem Value.Plain.exists_written {v : Value} (h : v.Plain) : ∃ c, v.Written c := by
  induction h with
  | int n => exact exists_written_int n
  | bool b => exact exists_written_bool b
  | array ref _ ih =>
      obtain ⟨cs, hcs⟩ := exists_forall₂ ih
      exact exists_written_array ref hcs
  | @hash ref sets hkeys _ ih =>
      have hpairs : ∀ p ∈ Table.ofSets sets, ∃ c, WrittenPair p c := by
        intro p hp
        have hmem := Table.mem_of_mem_ofSets hp
        obtain ⟨cv, hcv⟩ := ih p hmem
        obtain ⟨ck, hck⟩ : ∃ c, (Value.ofKey p.1).Written c := by
          cases hkey : p.1 with
          | int n => exact exists_written_int n
          | bool b => exact exists_written_bool b
          | str t => exact absurd (congrArg Key.tag hkey) (hkeys p hmem)
        exact ⟨(ck, cv), hck, hcv⟩
      obtain ⟨pairs, hpairs⟩ := exists_forall₂ hpairs
      exact exists_written_hash ref hpairs (Table.nodup_order_ofSets sets)

/-- Alone, the text of a value is scanned as what the phrase derives. -/
theorem Value.Written.terminals_inspect {v : Value} {c : Phrase 1} (h : v.Written c) :
    terminals v.inspect = c.yield := by
  have hscans := h.scans [] rfl
  rwa [List.append_nil, show terminals [] = [] from rfl, List.append_nil] at hscans

/-- The text of a value whose numerals fit is read without problems, as one expression that has the
tree of the phrase. -/
theorem Value.Written.reads {v : Value} {c : Phrase 1} (h : v.Written c)
    (hmin : Int64.minValue ∉ v.integers) : (parse v.inspect).diagnostics = [] ∧
      ∃ o e, (parse v.inspect).program.statements = [.expr o e] ∧ e.shape = c.tree := by
  have hyield : yieldStatements [.expr c false] = terminals v.inspect := by
    rw [h.terminals_inspect, yieldStatements, yieldStatements, List.append_nil, Sentence.yield]
    exact List.append_nil _
  have hends : endsBefore .eof := ⟨Kind.noConfusion, rfl⟩
  let d : Derivation (terminals v.inspect) :=
    ⟨[.expr c false], ⟨h.proper hmin, fun _ => hends, trivial⟩, hyield⟩
  have hnone := diagnostics_of_derivation d
  refine ⟨hnone, ?_⟩
  -- the text has only this derivation, so what is read is its tree
  obtain ⟨d', hshape⟩ := derivation_of_diagnostics hnone
  rw [d'.unique d] at hshape
  exact eq_expr_of_shapeStatements (congrArg Program.statements hshape)

/-- A program of one expression yields what the expression yields. -/
theorem yields_program {m : Tracer} {scope : ScopeId} (hsteps : m.limits.steps ≤ 0) {p : Program}
    {o : Origin} {e : Expr} (hp : p.statements = [.expr o e]) {P : Value → Prop}
    (he : (e.trace m scope).Yields P) (hP : ∀ u, P u → u.isReturned = false) :
    (Node.trace m scope (.program p)).Yields P := by
  have hstatements : (traceStatements m scope .null p.statements).Yields P := by
    rw [hp]
    refine Traced.Yields.bind (.node hsteps he) ?_
    intro u hu
    rw [if_neg (by rw [hP u hu]; exact Bool.false_ne_true)]
    exact .pure hu
  refine .node hsteps (hstatements.bind ?_)
  intro u hu
  have hreturned := hP u hu
  -- only a return wrapper would be taken off
  cases u <;> first | exact .pure hu | cases hreturned

/-- **Inspection of plain data reads back.** Take a value made of integers, booleans, arrays, and
hashes whose keys are integers and booleans. If the text that people see of it is read and evaluated
without a limit on steps, in any scope of any world, then there is no diagnostic and the result has
the structure of the value, with the pairs of each hash in the same order, exactly if the smallest
integer is not in the value. If it is, there is a diagnostic. -/
theorem inspection_reads_back {v : Value} (hplain : v.Plain) (limits : Limits)
    (hsteps : limits.steps ≤ 0) (calls : Nat) (scope : ScopeId) (w : World) :
    let parsed := parse v.inspect
    ((parsed.diagnostics = [] ∧
        ∃ u, (runWith calls limits (.program parsed.program) scope w).1 = .value u ∧
          u.unnamed = v.unnamed) ↔ Int64.minValue ∉ v.integers) ∧
      (Int64.minValue ∈ v.integers → parsed.diagnostics ≠ []) := by
  intro parsed
  obtain ⟨c, hc⟩ := hplain.exists_written
  -- the converse does not need what was read: a numeral that is too large is in no derivation
  have hnone : parsed.diagnostics = [] → Int64.minValue ∉ v.integers := by
    intro hdiagnostics
    refine hc.fits ?_
    rw [← hc.terminals_inspect]
    exact fits_of_diagnostics hdiagnostics
  refine ⟨⟨fun h => hnone h.1, ?_⟩, fun hmem hdiagnostics => hnone hdiagnostics hmem⟩
  intro hmin
  obtain ⟨hdiagnostics, o, e, hstatements, he⟩ := hc.reads hmin
  refine ⟨hdiagnostics, ?_⟩
  have hyields : (Node.trace (.ofLimits limits calls) scope (.program parsed.program)).Yields
      fun u => u.unnamed = v.unnamed := by
    refine yields_program hsteps hstatements (hc.yields hsteps he) ?_
    intro u hu
    rw [← u.isReturned_unnamed, hu, v.isReturned_unnamed, hplain.isReturned]
  exact value_of_yields hyields w

/-- A hash with a negative key that is set twice, and the least integer that reads back. Next to it,
the smallest integer in an array is a diagnostic. -/
theorem inspection_reads_back_nested :
    let sets : List (Key × Value) := [(.int (-3), .array 7 [.bool true, .array 8 []]),
      (.bool false, .int (Int64.minValue + 1)), (.int (-3), .array 9 [.hash 5 (Table.ofSets [])])]
    let v := Value.hash 4 (Table.ofSets sets)
    let least := Value.array 6 [.int Int64.minValue]
    v.Plain ∧ Int64.minValue ∉ v.integers ∧ ({} : Limits).steps ≤ 0 ∧
      (parse v.inspect).diagnostics = [] ∧
      (∃ u, (runWith 0 {} (.program (parse v.inspect).program) 0 .fresh).1 = .value u ∧
        u.unnamed = v.unnamed) ∧
      least.Plain ∧ Int64.minValue ∈ least.integers ∧ (parse least.inspect).diagnostics ≠ [] := by
  intro sets v least
  have hempty : (Value.hash 5 (Table.ofSets [])).Plain :=
    .hash 5 (List.forall_mem_nil _) (List.forall_mem_nil _)
  have hnested : (Value.array 7 [.bool true, .array 8 []]).Plain :=
    .array 7 (List.forall_mem_cons.mpr ⟨.bool true,
      List.forall_mem_singleton.mpr (.array 8 (List.forall_mem_nil _))⟩)
  have hplain : v.Plain := by
    have hlast : (Value.array 9 [.hash 5 (Table.ofSets [])]).Plain :=
      .array 9 (List.forall_mem_singleton.mpr hempty)
    refine .hash 4 (by decide) (List.forall_mem_cons.mpr ⟨hnested, ?_⟩)
    exact List.forall_mem_cons.mpr ⟨.int _, List.forall_mem_singleton.mpr hlast⟩
  have hleast : least.Plain := .array 6 (List.forall_mem_singleton.mpr (.int _))
  have hmin : Int64.minValue ∉ v.integers := by decide +kernel
  have hmem : Int64.minValue ∈ least.integers := List.mem_cons_self
  obtain ⟨hdiagnostics, hrun⟩ := (inspection_reads_back hplain {} (by decide) 0 0 .fresh).1.mpr hmin
  exact ⟨hplain, hmin, by decide, hdiagnostics, hrun, hleast, hmem,
    (inspection_reads_back hleast {} (by decide) 0 0 .fresh).2 hmem⟩

end Monkey
