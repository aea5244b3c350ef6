import Mathlib.Data.Int.ModEq
import Monkey.Proofs.Yields

/-!
# Integer arithmetic

An arithmetic tree is made of integers, signs, sums, differences, products and quotients. Evaluation
wraps around at every node, and still the value of a tree without quotients is right modulo 2^64: it
is the exact value, wrapped around once. A quotient does not go along with wrapping around, so it is
said of each quotient by itself what it is.

The evaluation of an arithmetic tree comes down to a calculation on words of 64 bits (`Arith.word`,
`Arith.run_word`). The rest is about that calculation: it agrees with the exact value
(`Arith.word_eq_exact`), and it fails at the first divisor that is zero (`Arith.word_eq_none_iff`).
-/

namespace Monkey

/-- An operator between two integers. -/
inductive ArithOp where
  | add
  | sub
  | mul
  | div
  deriving DecidableEq, Repr

namespace ArithOp

/-- The operator as it stands in a tree. -/
def op : ArithOp → BinaryOp
  | .add => .add
  | .sub => .sub
  | .mul => .mul
  | .div => .div

/-- The operator on integers; a quotient is truncated toward zero. -/
def exact : ArithOp → Int → Int → Int
  | .add, a, b => a + b
  | .sub, a, b => a - b
  | .mul, a, b => a * b
  | .div, a, b => a.tdiv b

/-- The operator on words; there is no quotient by zero. -/
def onWords : ArithOp → Int64 → Int64 → Option Int64
  | .add, a, b => some (a + b)
  | .sub, a, b => some (a - b)
  | .mul, a, b => some (a * b)
  | .div, a, b => if b = 0 then none else some (a / b)

end ArithOp

/-- An arithmetic tree. -/
inductive Arith where
  | lit (origin : Origin) (n : Int64)
  | neg (origin : Origin) (operand : Arith)
  | binary (origin : Origin) (op : ArithOp) (left right : Arith)

namespace Arith

/-- An arithmetic tree as an expression. -/
def expr : Arith → Expr
  | .lit o n => .int o n
  | .neg o operand => .unary o .neg operand.expr
  | .binary o op left right => .binary o op.op left.expr right.expr

/-- The value of a tree in the integers. -/
def exact : Arith → Int
  | .lit _ n => n.toInt
  | .neg _ operand => -operand.exact
  | .binary _ op left right => op.exact left.exact right.exact

/-- The value of a tree in words; there is none if a divisor is zero. -/
def word : Arith → Option Int64
  | .lit _ n => some n
  | .neg _ operand => operand.word.map (- ·)
  | .binary _ op left right => left.word.bind fun a => right.word.bind (op.onWords a)

/-- The divisors of a tree, in the order in which an evaluation from left to right is done with
them. -/
def divisors : Arith → List Arith
  | .lit _ _ => []
  | .neg _ operand => operand.divisors
  | .binary _ op left right =>
    left.divisors ++ (right.divisors ++ if op = .div then [right] else [])

end Arith

/-! ## Words and integers -/

/-- Words are equal if they are congruent as integers. -/
theorem Int64.eq_of_modEq {n m : Int64} (h : n.toInt ≡ m.toInt [ZMOD 2 ^ 64]) : n = m := by
  have hmod : n.toInt.bmod Int64.size = m.toInt.bmod Int64.size := by
    rw [← Int.emod_bmod, ← Int.emod_bmod (x := m.toInt)]
    exact congrArg (Int.bmod · Int64.size) h
  rwa [Int64.toInt_bmod_size, Int64.toInt_bmod_size, Int64.toInt_inj] at hmod

/-- A word that is made of an integer is congruent to it. -/
theorem Int64.toInt_ofInt_modEq (v : Int) : (Int64.ofInt v).toInt ≡ v [ZMOD 2 ^ 64] := by
  rw [Int64.toInt_ofInt]
  exact Int.bmod_emod

namespace ArithOp

/-- An operator but division gives the word of its exact result. -/
theorem onWords_ofInt {op : ArithOp} (h : op ≠ .div) (a b : Int) :
    op.onWords (Int64.ofInt a) (Int64.ofInt b) = some (Int64.ofInt (op.exact a b)) := by
  cases op with
  | add => exact congrArg some (Int64.ofInt_add a b).symm
  | sub => exact congrArg some (Int64.ofInt_sub a b).symm
  | mul => exact congrArg some (Int64.ofInt_mul a b).symm
  | div => exact absurd rfl h

/-- Any operator gives a word that is congruent to the exact result, unless it divides by zero. -/
theorem onWords_modEq {op : ArithOp} {a b : Int64} (h : op = .div → b ≠ 0) :
    ∃ n : Int64, op.onWords a b = some n ∧ n.toInt ≡ op.exact a.toInt b.toInt [ZMOD 2 ^ 64] := by
  by_cases hop : op = .div
  · obtain rfl := hop
    refine ⟨a / b, if_neg (h rfl), ?_⟩
    rw [Int64.toInt_div]
    exact Int.bmod_emod
  · have hwords := onWords_ofInt hop a.toInt b.toInt
    rw [a.ofInt_toInt, b.ofInt_toInt] at hwords
    exact ⟨_, hwords, Int64.toInt_ofInt_modEq _⟩

theorem onWords_eq_none_iff {op : ArithOp} {a b : Int64} :
    op.onWords a b = none ↔ op = .div ∧ b = 0 := by
  cases op with
  | div =>
      show (if b = 0 then none else some (a / b)) = none ↔ _
      by_cases hb : b = 0 <;> simp [hb]
  | _ => simp [onWords]

end ArithOp

/-! ## Evaluation -/

namespace ArithOp

variable {op : ArithOp} {a b n : Int64}

/-- An operator between words that has a result yields it. -/
theorem yields_apply (h : op.onWords a b = some n) :
    (Traced.ofExcept (op.op.apply (.int a) (.int b))).Yields (· = .int n) := by
  cases op with
  | div =>
      have hb : b ≠ 0 := by
        intro hb
        rw [onWords_eq_none_iff.mpr ⟨rfl, hb⟩] at h
        cases h
      have happly : BinaryOp.div.apply (.int a) (.int b) = .ok (.int (a / b)) := if_neg hb
      have hquotient : a / b = n := Option.some.inj ((if_neg hb).symm.trans h)
      rw [op, happly, hquotient]
      exact .pure rfl
  | _ => exact .pure (congrArg Value.int (Option.some.inj h))

/-- A division by zero stops. -/
theorem stops_apply (h : op.onWords a b = none) :
    (Traced.ofExcept (op.op.apply (.int a) (.int b))).Stops (.fault .divisionByZero) := by
  obtain ⟨rfl, hb⟩ := onWords_eq_none_iff.mp h
  have happly : BinaryOp.div.apply (.int a) (.int b) = .error .divisionByZero := if_pos hb
  rw [op, happly]
  exact fun _ => rfl

end ArithOp

namespace Arith

variable {m : Tracer} {scope : ScopeId}

theorem isAbsent_expr (a : Arith) : ¬ a.expr.isAbsent = true := by
  cases a <;> exact Bool.false_ne_true

/-- An arithmetic tree that has a word yields it. -/
theorem yields_expr (hsteps : m.limits.steps ≤ 0) {a : Arith} {n : Int64} (h : a.word = some n) :
    (a.expr.trace m scope).Yields (· = .int n) := by
  induction a generalizing n with
  | lit o k => exact .node hsteps (.pure (congrArg Value.int (Option.some.inj h)))
  | neg o operand ih =>
      obtain ⟨k, hk, rfl⟩ := Option.map_eq_some_iff.mp h
      refine .node hsteps ?_
      rw [if_neg operand.isAbsent_expr]
      refine (ih hk).used.bind ?_
      rintro _ rfl
      exact .pure rfl
  | binary o op left right ihl ihr =>
      obtain ⟨x, hx, h⟩ := Option.bind_eq_some_iff.mp h
      obtain ⟨y, hy, h⟩ := Option.bind_eq_some_iff.mp h
      refine .node hsteps ?_
      rw [if_neg right.isAbsent_expr]
      refine (ihl hx).used.bind ?_
      rintro _ rfl
      refine (ihr hy).used.bind ?_
      rintro _ rfl
      exact ArithOp.yields_apply h

/-- An arithmetic tree that has none divides by zero. -/
theorem stops_expr (hsteps : m.limits.steps ≤ 0) {a : Arith} (h : a.word = none) :
    (a.expr.trace m scope).Stops (.fault .divisionByZero) := by
  induction a with
  | lit o k => cases h
  | neg o operand ih =>
      refine .node hsteps ?_
      rw [if_neg operand.isAbsent_expr]
      exact (ih (Option.map_eq_none_iff.mp h)).used.bind _
  | binary o op left right ihl ihr =>
      refine .node hsteps ?_
      rw [if_neg right.isAbsent_expr]
      -- the first of the left operand, the right operand and the operator that fails
      cases hx : left.word with
      | none => exact (ihl hx).used.bind _
      | some x =>
          refine (yields_expr hsteps hx).used.bind_stops ?_
          rintro _ rfl
          cases hy : right.word with
          | none => exact (ihr hy).used.bind _
          | some y =>
              refine (yields_expr hsteps hy).used.bind_stops ?_
              rintro _ rfl
              rw [word, hx, hy] at h
              exact ArithOp.stops_apply h

/-! ## Calculating on words -/

/-- Without quotients, words are right modulo 2^64. The induction goes through since the word of an
integer is the same after the exact operation as after that on words. -/
theorem word_eq_exact {a : Arith} (h : a.divisors = []) : a.word = some (Int64.ofInt a.exact) := by
  induction a with
  | lit o n => exact congrArg some n.ofInt_toInt.symm
  | neg o operand ih =>
      rw [word, ih h, exact, Int64.ofInt_neg]
      rfl
  | binary o op left right ihl ihr =>
      obtain ⟨hleft, hright⟩ := List.append_eq_nil_iff.mp h
      obtain ⟨hright, hop⟩ := List.append_eq_nil_iff.mp hright
      -- a quotient would have put its divisor last
      have hdiv : op ≠ .div := by
        intro hdiv
        rw [if_pos hdiv] at hop
        cases hop
      rw [word, ihl hleft, ihr hright]
      exact ArithOp.onWords_ofInt hdiv _ _

/-- If a tree has a word, no divisor of it is zero. -/
theorem word_divisor {a : Arith} {n : Int64} (h : a.word = some n) :
    ∀ d ∈ a.divisors, ∃ k : Int64, k ≠ 0 ∧ d.word = some k := by
  induction a generalizing n with
  | lit o k => exact fun _ hd => absurd hd List.not_mem_nil
  | neg o operand ih =>
      obtain ⟨k, hk, -⟩ := Option.map_eq_some_iff.mp h
      exact ih hk
  | binary o op left right ihl ihr =>
      obtain ⟨x, hx, hrest⟩ := Option.bind_eq_some_iff.mp h
      obtain ⟨y, hy, hresult⟩ := Option.bind_eq_some_iff.mp hrest
      refine List.forall_mem_append.mpr
        ⟨ihl hx, List.forall_mem_append.mpr ⟨ihr hy, fun d hd => ?_⟩⟩
      split at hd
      · rename_i hop
        obtain rfl := List.mem_singleton.mp hd
        refine ⟨y, fun hzero => ?_, hy⟩
        rw [ArithOp.onWords_eq_none_iff.mpr ⟨hop, hzero⟩] at hresult
        cases hresult
      · exact absurd hd List.not_mem_nil

/-- One of some trees is zero, and all before it are other numbers. -/
def MeetsZero (ds : List Arith) : Prop :=
  ∃ before d after, ds = before ++ d :: after ∧
    (∀ d' ∈ before, ∃ k : Int64, k ≠ 0 ∧ d'.word = some k) ∧ d.word = some 0

theorem MeetsZero.append_right {ds : List Arith} (h : MeetsZero ds) (ds' : List Arith) :
    MeetsZero (ds ++ ds') := by
  obtain ⟨before, d, after, rfl, hbefore, hzero⟩ := h
  exact ⟨before, d, after ++ ds', by rw [List.append_assoc, List.cons_append], hbefore, hzero⟩

theorem MeetsZero.append_left {ds' : List Arith} (h : MeetsZero ds') {ds : List Arith}
    (hds : ∀ d ∈ ds, ∃ k : Int64, k ≠ 0 ∧ d.word = some k) : MeetsZero (ds ++ ds') := by
  obtain ⟨before, d, after, rfl, hbefore, hzero⟩ := h
  exact ⟨ds ++ before, d, after, (List.append_assoc _ _ _).symm,
    List.forall_mem_append.mpr ⟨hds, hbefore⟩, hzero⟩

/-- A tree has no word just if one of its divisors is zero. -/
theorem word_eq_none_iff {a : Arith} : a.word = none ↔ MeetsZero a.divisors := by
  constructor
  · intro h
    induction a with
    | lit o n => cases h
    | neg o operand ih => exact ih (Option.map_eq_none_iff.mp h)
    | binary o op left right ihl ihr =>
        -- what comes after the part that fails is never reached, and what comes before has words
        cases hx : left.word with
        | none => exact (ihl hx).append_right _
        | some x =>
            refine MeetsZero.append_left ?_ (word_divisor hx)
            cases hy : right.word with
            | none => exact (ihr hy).append_right _
            | some y =>
                rw [word, hx, hy] at h
                obtain ⟨hop, hzero⟩ := ArithOp.onWords_eq_none_iff.mp h
                refine MeetsZero.append_left ?_ (word_divisor hy)
                rw [if_pos hop]
                refine ⟨[], right, [], rfl, fun _ hd => absurd hd List.not_mem_nil, ?_⟩
                rw [hy, hzero]
  · rintro ⟨before, d, after, hsplit, -, hzero⟩
    cases h : a.word with
    | none => rfl
    | some n =>
        have hmem : d ∈ a.divisors := hsplit ▸ List.mem_append_right before List.mem_cons_self
        obtain ⟨k, hk, hword⟩ := word_divisor h d hmem
        rw [hzero] at hword
        exact absurd (Option.some.inj hword).symm hk

/-! ## Results -/

section Results

variable {calls : Nat} {limits : Limits} {w : World}

/-- The result of a run of an arithmetic tree, by its word. -/
theorem run_word (hsteps : limits.steps ≤ 0) (a : Arith) :
    (runWith calls limits (.expr a.expr) scope w).1
      = .value (a.word.elim (.error .divisionByZero) .int) := by
  cases h : a.word with
  | none =>
      have hstops : (Node.trace (.ofLimits limits calls) scope (.expr a.expr)).Stops
          (.fault .divisionByZero) := stops_expr hsteps h
      exact error_of_stops hstops w
  | some n =>
      have hyields : (Node.trace (.ofLimits limits calls) scope (.expr a.expr)).Yields
          (· = .int n) := yields_expr hsteps h
      obtain ⟨v, hv, rfl⟩ := value_of_yields hyields w
      exact hv

theorem run_eq_int_iff (hsteps : limits.steps ≤ 0) {a : Arith} {n : Int64} :
    (runWith calls limits (.expr a.expr) scope w).1 = .value (.int n) ↔ a.word = some n := by
  rw [run_word hsteps]
  cases a.word <;> simp

theorem run_eq_error_iff (hsteps : limits.steps ≤ 0) {a : Arith} :
    (runWith calls limits (.expr a.expr) scope w).1 = .value (.error .divisionByZero) ↔
      a.word = none := by
  rw [run_word hsteps]
  cases a.word <;> simp

end Results

end Arith

/-- **Integer arithmetic is exact modulo 2^64.** Run without a limit on steps, in any scope of any
world, an arithmetic tree without quotients yields the one 64-bit integer that is congruent to its
exact value. With quotients it yields an integer or the error "division by zero", and nothing else;
it yields that error exactly if, from left to right, a divisor comes that yields zero, where all
divisors before yield other integers. Each sign and each operator yields the 64-bit integer that is
congruent to its exact result on what its operands yield, where an exact quotient is truncated
toward zero. -/
theorem arithmetic_is_exact_modulo (limits : Limits) (hsteps : limits.steps ≤ 0) (calls : Nat)
    (scope : ScopeId) (w : World) (a : Arith) :
    let result (a : Arith) := (runWith calls limits (.expr a.expr) scope w).1
    (a.divisors = [] → ∃ n : Int64, result a = .value (.int n) ∧ n.toInt ≡ a.exact [ZMOD 2 ^ 64] ∧
      ∀ k : Int64, k.toInt ≡ a.exact [ZMOD 2 ^ 64] → k = n) ∧
    ((∃ n, result a = .value (.int n)) ∨ result a = .value (.error .divisionByZero)) ∧
    (result a = .value (.error .divisionByZero) ↔ ∃ before d after,
      a.divisors = before ++ d :: after ∧
      (∀ d' ∈ before, ∃ k, k ≠ 0 ∧ result d' = .value (.int k)) ∧ result d = .value (.int 0)) ∧
    Fault.divisionByZero.message = text "division by zero" ∧
    (∀ (o : Origin) (operand : Arith) (x : Int64), result operand = .value (.int x) →
      ∃ n : Int64, result (.neg o operand) = .value (.int n) ∧ n.toInt ≡ -x.toInt [ZMOD 2 ^ 64]) ∧
    ∀ (o : Origin) (op : ArithOp) (left right : Arith) (x y : Int64),
      result left = .value (.int x) → result right = .value (.int y) → (op = .div → y ≠ 0) →
      ∃ n : Int64, result (.binary o op left right) = .value (.int n) ∧
        n.toInt ≡ op.exact x.toInt y.toInt [ZMOD 2 ^ 64] := by
  intro result
  have hint {a : Arith} {n : Int64} : result a = .value (.int n) ↔ a.word = some n :=
    Arith.run_eq_int_iff hsteps
  have herror {a : Arith} : result a = .value (.error .divisionByZero) ↔ a.word = none :=
    Arith.run_eq_error_iff hsteps
  -- all results below are words or the lack of one
  simp only [hint, herror]
  refine ⟨fun hnone => ?_, ?_, Arith.word_eq_none_iff, rfl, fun o operand x hx => ?_,
    fun o op left right x y hx hy hop => ?_⟩
  · refine ⟨_, Arith.word_eq_exact hnone, Int64.toInt_ofInt_modEq _, fun k hk => ?_⟩
    exact Int64.eq_of_modEq (hk.trans (Int64.toInt_ofInt_modEq _).symm)
  · cases a.word with
    | none => exact .inr rfl
    | some n => exact .inl ⟨n, rfl⟩
  · refine ⟨-x, ?_, ?_⟩
    · rw [Arith.word, hx]
      rfl
    · rw [Int64.toInt_neg]
      exact Int.bmod_emod
  · obtain ⟨n, hn, hcongr⟩ := ArithOp.onWords_modEq (a := x) hop
    refine ⟨n, ?_, hcongr⟩
    rw [Arith.word, hx, hy]
    exact hn

/-- The quotient of the smallest integer by -1 does not fit and wraps around to the smallest integer
itself, so the two have no difference to divide by. -/
theorem arithmetic_is_exact_modulo_smallest :
    let result (a : Arith) := (runWith 0 {} (.expr a.expr) 0 .fresh).1
    let smallest : Arith := .lit default Int64.minValue
    let quotient : Arith := .binary default .div smallest (.lit default (-1))
    let failing : Arith := .binary default .div smallest
      (.binary default .sub quotient smallest)
    ({} : Limits).steps ≤ 0 ∧ result quotient = .value (.int Int64.minValue) ∧
      result failing = .value (.error .divisionByZero) := by
  intro result smallest quotient failing
  have hquotient : result quotient = .value (.int Int64.minValue) := by
    obtain ⟨n, hn, hcongr⟩ := (arithmetic_is_exact_modulo {} (by decide) 0 0 .fresh
      quotient).2.2.2.2.2 default .div smallest (.lit default (-1)) Int64.minValue (-1) rfl rfl
      (by decide)
    rwa [Int64.eq_of_modEq (m := Int64.minValue) (hcongr.trans (by decide))] at hn
  refine ⟨by decide, hquotient, ?_⟩
  refine (arithmetic_is_exact_modulo {} (by decide) 0 0 .fresh failing).2.2.1.mpr ?_
  refine ⟨[.lit default (-1)], .binary default .sub quotient smallest, [], rfl, ?_, rfl⟩
  exact List.forall_mem_singleton.mpr ⟨-1, by decide, rfl⟩

end Monkey
