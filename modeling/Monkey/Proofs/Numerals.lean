import Monkey.Proofs.Accepts

/-!
# Numerals

A number that is written in decimal is read as itself (`Text.decimal_ofNat`). In a source only
numerals up to the largest 64-bit integer are allowed: each numeral of a source that is read without
problems fits (`fits_of_diagnostics`), also where it stands after a minus sign.
-/

namespace Monkey

open Grammar

namespace Text

theorem ofNat_ne_nil (n : Nat) : ofNat n ≠ [] := by
  rw [ofNat, Ne, List.map_eq_nil_iff]
  exact Nat.toDigits_ne_nil

/-- The byte of a decimal digit. -/
theorem toNat_toUInt8_of_isDigit {c : Char} (h : c.isDigit = true) :
    c.toNat.toUInt8.toNat = c.toNat ∧ 0x30 ≤ c.toNat ∧ c.toNat ≤ 0x39 := by
  obtain ⟨hlow, hhigh⟩ := Char.isDigit_iff_toNat.mp h
  refine ⟨?_, hlow, hhigh⟩
  exact UInt8.toNat_ofNat_of_lt (Nat.lt_of_le_of_lt hhigh (by decide))

theorem all_isDigit_ofNat (n : Nat) : (ofNat n).all isDigit = true := by
  rw [ofNat, List.all_map, List.all_eq_true]
  intro c hc
  obtain ⟨hbyte, hlow, hhigh⟩ :=
    toNat_toUInt8_of_isDigit (Nat.isDigit_of_mem_toDigits (by decide) (by decide) hc)
  show (decide (0x30 ≤ c.toNat.toUInt8) && decide (c.toNat.toUInt8 ≤ 0x39)) = true
  rw [Bool.and_eq_true, decide_eq_true_iff, decide_eq_true_iff, UInt8.le_iff_toNat_le,
    UInt8.le_iff_toNat_le, hbyte]
  exact ⟨hlow, hhigh⟩

/-- Digits denote the same number as characters and as bytes. -/
theorem foldl_map_toUInt8 {cs : List Char} (h : ∀ c ∈ cs, c.isDigit = true) (n : Nat) :
    (cs.map fun c => c.toNat.toUInt8).foldl (fun n b => n * 10 + (b.toNat - 0x30)) n
      = Nat.ofDigitChars 10 cs n := by
  induction cs generalizing n with
  | nil => exact Nat.ofDigitChars_nil.symm
  | cons c cs ih =>
      obtain ⟨hc, hcs⟩ := List.forall_mem_cons.mp h
      rw [List.map_cons, List.foldl_cons, ih hcs, Nat.ofDigitChars_cons,
        (toNat_toUInt8_of_isDigit hc).1, Nat.mul_comm]
      rfl

/-- A number that is written in decimal is read as itself. -/
theorem decimal_ofNat (n : Nat) : decimal (ofNat n) = n := by
  have hdigits (c : Char) (hc : c ∈ Nat.toDigits 10 n) : c.isDigit = true :=
    Nat.isDigit_of_mem_toDigits (by decide) (by decide) hc
  rw [decimal, ofNat, foldl_map_toUInt8 hdigits, Nat.ofDigitChars_ten_toDigits]

end Text

/-! ## Numerals that fit -/

/-- A terminal that is a numeral is one that a phrase may be. -/
def Terminal.Fits (t : Terminal) : Prop :=
  t.kind = .int → (Phrase.int t.literal).Proper

namespace Grammar

/-- A numeral is proper if its number is smaller than 2^63. -/
theorem proper_ofNat_iff (n : Nat) : (Phrase.int (Text.ofNat n)).Proper ↔ n < 1 <<< 63 := by
  have hproper : (Phrase.int (Text.ofNat n)).Proper ↔ Text.decimal (Text.ofNat n) < 1 <<< 63 :=
    Nat.lt_succ_iff.symm
  rw [hproper, Text.decimal_ofNat]

/-- What is not a numeral fits. -/
@[simp] theorem fits_of_ne {k : Kind} (h : k ≠ .int) (literal : Text) :
    Terminal.Fits ⟨k, literal⟩ :=
  fun heq => absurd heq h

@[simp] theorem fits_terminal {k : Kind} (h : k ≠ .int) : k.terminal.Fits :=
  fits_of_ne h _

theorem fits_moreNames (names : List Text) : ∀ t ∈ yieldMoreNames names, t.Fits := by
  induction names with
  | nil => exact List.forall_mem_nil _
  | cons name names ih => simpa [yieldMoreNames] using ih

theorem fits_names (names : List Text) : ∀ t ∈ yieldNames names, t.Fits := by
  cases names with
  | nil => exact List.forall_mem_nil _
  | cons name names => simpa [yieldNames] using fits_moreNames names

theorem fits_optional {k : Kind} (hk : k ≠ .int) (present : Bool) :
    ∀ t ∈ optional k present, t.Fits := by
  cases present <;> simp [optional, hk]

mutual

/-- The numerals of a phrase fit. -/
theorem Phrase.fits : {k : Nat} → (c : Phrase k) → c.Proper → ∀ t ∈ c.yield, t.Fits
  | _, .ident _, _ | _, .str _, _ | _, .emptyHash, _ => by simp [Phrase.yield]
  | _, .int _, h => List.forall_mem_singleton.mpr fun _ => h
  | _, .bool value, _ => by cases value <;> simp [Phrase.yield]
  | _, .group inner, h => by
      simpa [Phrase.yield, or_imp, forall_and] using inner.fits h
  | _, .cond test consequence, h => by
      simpa [Phrase.yield, or_imp, forall_and] using
        And.intro (test.fits h.1) (fits_statements consequence h.2)
  | _, .condElse test consequence alternative, h => by
      simpa [Phrase.yield, or_imp, forall_and] using And.intro (test.fits h.1)
        (And.intro (fits_statements consequence h.2.1) (fits_statements alternative h.2.2))
  | _, .fn params body, h => by
      simpa [Phrase.yield, or_imp, forall_and] using
        And.intro (fits_names params) (fits_statements body h)
  | _, .array elements, h => by
      simpa [Phrase.yield, or_imp, forall_and] using fits_list elements h
  | _, .hash key value more trailing, h => by
      have hcomma := fits_optional (k := .comma) Kind.noConfusion trailing
      simpa [Phrase.yield, or_imp, forall_and] using And.intro (key.fits h.1)
        (And.intro (value.fits h.2.1) (And.intro (fits_morePairs more h.2.2) hcomma))
  | _, .call callee args, h => by
      simpa [Phrase.yield, or_imp, forall_and]
        using And.intro (callee.fits h.1) (fits_list args h.2)
  | _, .index left inner, h => by
      simpa [Phrase.yield, or_imp, forall_and] using And.intro (left.fits h.1) (inner.fits h.2)
  | _, .unary sign operand, h => by
      cases sign <;> simpa [Phrase.yield, Sign.kind] using operand.fits h
  | _, .binary op _ left right, h => by
      have hoperands := And.intro (left.fits h.1) (right.fits h.2)
      cases op <;> simpa [Phrase.yield, Operator.kind, or_imp, forall_and] using hoperands
  | _, .lift inner, h => inner.fits h

theorem fits_list : (cs : List (Phrase 1)) → ProperList cs → ∀ t ∈ yieldList cs, t.Fits
  | [], _ => List.forall_mem_nil _
  | c :: cs, h => List.forall_mem_append.mpr ⟨c.fits h.1, fits_more cs h.2⟩

theorem fits_more : (cs : List (Phrase 1)) → ProperList cs → ∀ t ∈ yieldMore cs, t.Fits
  | [], _ => List.forall_mem_nil _
  | c :: cs, h => by
      simpa [yieldMore, or_imp, forall_and] using And.intro (c.fits h.1) (fits_more cs h.2)

theorem fits_morePairs : (ps : List (Phrase 1 × Phrase 1)) → ProperPairs ps →
    ∀ t ∈ yieldMorePairs ps, t.Fits
  | [], _ => List.forall_mem_nil _
  | (key, value) :: ps, h => by
      simpa [yieldMorePairs, or_imp, forall_and] using
        And.intro (key.fits h.1) (And.intro (value.fits h.2.1) (fits_morePairs ps h.2.2))

/-- The numerals of a sentence fit. -/
theorem Sentence.fits : (c : Sentence) → c.Proper → ∀ t ∈ c.yield, t.Fits
  | .bind _ value closed, h => by
      simpa [Sentence.yield, or_imp, forall_and] using
        And.intro (value.fits h) (fits_optional (k := .semicolon) Kind.noConfusion closed)
  | .ret value closed, h => by
      simpa [Sentence.yield, or_imp, forall_and] using
        And.intro (value.fits h) (fits_optional (k := .semicolon) Kind.noConfusion closed)
  | .bare closed, _ => by
      simpa [Sentence.yield] using fits_optional (k := .semicolon) Kind.noConfusion closed
  | .expr value closed, h =>
      List.forall_mem_append.mpr ⟨value.fits h, fits_optional Kind.noConfusion closed⟩

theorem fits_statements {after : List Terminal} : (cs : List Sentence) → ProperStatements after cs →
    ∀ t ∈ yieldStatements cs, t.Fits
  | [], _ => List.forall_mem_nil _
  | c :: cs, h => List.forall_mem_append.mpr ⟨c.fits h.1, fits_statements cs h.2.2⟩

end

end Grammar

/-- The numerals of a source that is read without problems fit. -/
theorem fits_of_diagnostics {source : Text} (h : (parse source).diagnostics = []) :
    ∀ t ∈ terminals source, t.Fits := by
  obtain ⟨⟨cs, hproper, hyield⟩, -⟩ := derivation_of_diagnostics h
  rw [← hyield]
  exact fits_statements cs hproper

end Monkey
