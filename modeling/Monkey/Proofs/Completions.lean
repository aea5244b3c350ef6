import Monkey.Proofs.Runes
import Monkey.Proofs.Scopes
import Monkey.Repl.Completion

/-!
# What a word is completed to

The word before a place in a line is found by going back through letters and underscores, and it is
the longest run of these that ends there (`isWordBefore_wordBefore`). What it is completed to comes
from three lists of words that may overlap; they are put into one that is sorted and has nothing
twice, and the words that go on after the word are kept, without that start. Taking the same start
away keeps the order (`lt_of_append_lt`), so the ends are strictly increasing, too.

Ends are shown as characters, and a byte at which none starts would be shown as another character.
That does not happen if all names are made of letters and underscores, since these are ASCII
(`Text.repair_of_ascii`).
-/

namespace Monkey

/-- A character is an ASCII letter or an underscore. -/
def IsNameCharacter (c : Char) : Prop :=
  c.isAlpha = true ∨ c = '_'

/-- A word is the longest run of letters and underscores that ends at a place in a line. -/
structure IsWordBefore (line : List Char) (place : Nat) (word : List Char) : Prop where
  ends : word <:+ line.take place
  letters : ∀ c ∈ word, IsNameCharacter c
  longest (run : List Char) : run <:+ line.take place → (∀ c ∈ run, IsNameCharacter c) →
    run.length ≤ word.length

/-- What can be completed to in a scope: the reserved words, the built-in functions and the names
that are found from there. -/
def Completable (h : Heap) (scope : ScopeId) (word : Text) : Prop :=
  word ∈ keywords.map Prod.fst ∨ word ∈ Builtin.all.map Builtin.name ∨
    (h.get? scope word).isSome = true

/-! ## The word -/

theorem isAlpha_iff (c : Char) :
    c.isAlpha = true ↔ ('a' ≤ c ∧ c ≤ 'z') ∨ ('A' ≤ c ∧ c ≤ 'Z') := by
  show (decide ('A' ≤ c ∧ c ≤ 'Z') || (decide ('a' ≤ c) && decide (c ≤ 'z'))) = true ↔ _
  rw [Bool.or_eq_true, Bool.and_eq_true, decide_eq_true_eq, decide_eq_true_eq, decide_eq_true_eq,
    or_comm]

/-- Name characters are the letters and the underscore. -/
theorem isNameChar_iff (c : Char) : isNameChar c = true ↔ IsNameCharacter c := by
  rw [IsNameCharacter, isAlpha_iff, isNameChar, Bool.or_eq_true, Bool.or_eq_true, Bool.and_eq_true,
    Bool.and_eq_true]
  simp only [decide_eq_true_eq]
  rw [or_assoc, or_comm]

/-- What is taken backwards from a place while there are name characters is the word before it. -/
theorem isWordBefore_wordBefore (line : List Char) (place : Nat) :
    IsWordBefore line place (wordBefore line place) := by
  refine ⟨?_, fun c hc => ?_, fun run hrun hletters => ?_⟩
  · have hfirst := List.takeWhile_prefix isNameChar (l := (line.take place).reverse)
    rw [← List.reverse_suffix, List.reverse_reverse] at hfirst
    exact hfirst
  · have hall : ((line.take place).reverse.takeWhile isNameChar).all isNameChar = true :=
      List.all_takeWhile
    exact (isNameChar_iff c).mp (List.all_eq_true.mp hall c (List.mem_reverse.mp hc))
  · -- seen from its end, the line begins with the run, which is then taken as a whole
    obtain ⟨before, hbefore⟩ := hrun
    have hall : ∀ c ∈ run.reverse, isNameChar c = true := fun c hc =>
      (isNameChar_iff c).mpr (hletters c (List.mem_reverse.mp hc))
    rw [wordBefore, ← hbefore, List.reverse_append, List.takeWhile_append_of_pos hall,
      List.length_reverse, List.length_append, List.length_reverse]
    exact Nat.le_add_right _ _

/-! ## The ends -/

theorem afterStart?_eq_some_iff {start t s : Text} :
    Text.afterStart? start t = some s ↔ t = start ++ s := by
  rw [Text.afterStart?]
  constructor
  · intro h
    split at h
    · next hstart =>
        cases h
        exact (List.prefix_iff_eq_append.mp (List.isPrefixOf_iff_prefix.mp hstart)).symm
    · cases h
  · rintro rfl
    rw [if_pos (List.isPrefixOf_iff_prefix.mpr (List.prefix_append start s)), List.drop_left]

/-- Texts with the same start are in the order of what comes after it. -/
theorem lt_of_append_lt {start s t : Text} (h : start ++ s < start ++ t) : s < t := by
  induction start with
  | nil => exact h
  | cons b start ih =>
      rcases List.cons_lt_cons_iff.mp h with hlt | ⟨-, hlt⟩
      · exact absurd hlt (UInt8.lt_irrefl b)
      · exact ih hlt

/-- The ends of the candidates that go on after a start. -/
def endsAfter (start : Text) (names : List Text) : List Text :=
  (candidates names).filterMap fun name =>
    if name = start then none else Text.afterStart? start name

theorem endOf_eq_some_iff {start name s : Text} :
    (if name = start then none else Text.afterStart? start name) = some s ↔
      s ≠ [] ∧ name = start ++ s := by
  constructor
  · intro h
    split at h
    · cases h
    · next hne =>
        have hname := afterStart?_eq_some_iff.mp h
        refine ⟨?_, hname⟩
        rintro rfl
        exact hne (hname.trans (List.append_nil start))
  · rintro ⟨hs, rfl⟩
    rw [if_neg fun heq => hs (List.append_right_eq_self.mp heq)]
    exact afterStart?_eq_some_iff.mpr rfl

/-- The proper ends of candidates are offered, and nothing else. -/
theorem mem_endsAfter {start s : Text} {names : List Text} :
    s ∈ endsAfter start names ↔ s ≠ [] ∧ start ++ s ∈ candidates names := by
  rw [endsAfter, List.mem_filterMap]
  constructor
  · rintro ⟨name, hname, hs⟩
    obtain ⟨hne, rfl⟩ := endOf_eq_some_iff.mp hs
    exact ⟨hne, hname⟩
  · rintro ⟨hne, hname⟩
    exact ⟨start ++ s, hname, endOf_eq_some_iff.mpr ⟨hne, rfl⟩⟩

/-- What is offered is sorted, without repetitions. -/
theorem pairwise_endsAfter (start : Text) (names : List Text) :
    (endsAfter start names).Pairwise (· < ·) := by
  refine List.Pairwise.filterMap _ ?_ (Text.pairwise_sortNames _)
  intro name name' hlt s hs s' hs'
  rw [(endOf_eq_some_iff.mp hs).2, (endOf_eq_some_iff.mp hs').2] at hlt
  exact lt_of_append_lt hlt

/-- The candidates are the keywords, the built-in functions and the names that are bound in the
scope or around it. -/
theorem mem_candidates_names (h : Heap) (scope : ScopeId) (word : Text) :
    word ∈ candidates (h.names scope) ↔ Completable h scope word := by
  rw [candidates, Text.mem_sortNames, List.mem_append, List.mem_append, Heap.mem_names_iff,
    or_assoc]
  rfl

/-- After a word its ends are offered, and it is said how long the word is. -/
theorem complete_of_word (names : List Text) {line : List Char} {place : Nat}
    (hword : wordBefore line place ≠ []) : complete names line place =
      ((endsAfter ((wordBefore line place).flatMap String.utf8EncodeChar) names).map Text.repair,
        (wordBefore line place).length) :=
  if_neg fun hempty => hword (List.isEmpty_iff.mp hempty)

/-! ## Characters -/

/-- A text of single-byte runes needs no repair. -/
theorem Text.repair_of_ascii {t : Text} (h : ∀ b ∈ t, b < 0x80) : t.repair = t := by
  induction t with
  | nil => rfl
  | cons b rest ih =>
      obtain ⟨hb, hrest⟩ := List.forall_mem_cons.mp h
      have hdecode : decode? (b :: rest) = some (Char.ofNat b.toNat, rest) := if_pos hb
      have hencode : String.utf8EncodeChar (Char.ofNat b.toNat) = [b] := by
        have hbytes : [b] ++ rest = _ := decode?_eq_some hdecode
        exact (List.append_cancel_right hbytes).symm
      have hrunes : runes (b :: rest) = .char (Char.ofNat b.toNat) :: runes rest := by
        rw [runes, List.length_cons, runesUpTo, hdecode]
        rfl
      rw [repair, hrunes, List.flatMap_cons]
      show String.utf8EncodeChar (Char.ofNat b.toNat) ++ repair rest = b :: rest
      rw [hencode, ih hrest]
      rfl

theorem ascii_of_isLetter {b : UInt8} (h : isLetter b = true) : b < 0x80 := by
  simp only [isLetter, Bool.or_eq_true, Bool.and_eq_true, decide_eq_true_eq,
    UInt8.le_iff_toNat_le] at h
  rw [UInt8.lt_iff_toNat_lt]
  rcases h with (rfl | ⟨-, h⟩) | ⟨-, h⟩
  · decide
  · exact Nat.lt_of_le_of_lt h (by decide)
  · exact Nat.lt_of_le_of_lt h (by decide)

section Names

variable {h : Heap} {scope : ScopeId}
  (hnames : ∀ name, (h.get? scope name).isSome = true → ∀ b ∈ name, isLetter b = true)
include hnames

/-- Where all names are made of letters, all that can be completed to is ASCII. -/
theorem ascii_of_completable {word : Text} (hword : Completable h scope word) :
    ∀ b ∈ word, b < 0x80 := by
  have hreserved : ∀ w ∈ keywords.map Prod.fst, ∀ b ∈ w, b < 0x80 := by
    decide +kernel
  have hbuiltin : ∀ w ∈ Builtin.all.map Builtin.name, ∀ b ∈ w, b < 0x80 := by
    decide +kernel
  rcases hword with hword | hword | hword
  · exact hreserved word hword
  · exact hbuiltin word hword
  · exact fun b hb => ascii_of_isLetter (hnames word hword b hb)

/-- The ends are shown as they are. -/
theorem repair_endsAfter (start : Text) :
    (endsAfter start (h.names scope)).map Text.repair = endsAfter start (h.names scope) := by
  refine (List.map_congr_left fun s hs => ?_).trans (List.map_id _)
  have hword := (mem_candidates_names h scope _).mp (mem_endsAfter.mp hs).2
  exact Text.repair_of_ascii fun b hb =>
    ascii_of_completable hnames hword b (List.mem_append_right start hb)

end Names

/-- **Completion offers exactly the right words.** Let the names that are found from a scope be made
of letters and underscores. At each place in a line there is a longest run of letters and
underscores that ends there. If it is empty, nothing is offered. Otherwise its length is given, and
a strictly increasing list, in which therefore nothing is twice, of the ends that are not empty and
that make the run a reserved word, a built-in function or a name that is found. -/
theorem completion_offers_exactly (h : Heap) (scope : ScopeId)
    (hnames : ∀ name, (h.get? scope name).isSome = true → ∀ b ∈ name, isLetter b = true)
    (line : List Char) (place : Nat) :
    ∃ word, IsWordBefore line place word ∧
      (word = [] → complete (h.names scope) line place = ([], 0)) ∧
      (word ≠ [] → ∃ ends, complete (h.names scope) line place = (ends, word.length) ∧
        ends.Pairwise (· < ·) ∧ ∀ s, s ∈ ends ↔
          s ≠ [] ∧ Completable h scope (word.flatMap String.utf8EncodeChar ++ s)) := by
  refine ⟨wordBefore line place, isWordBefore_wordBefore line place, fun hword => ?_,
    fun hword => ?_⟩
  · exact if_pos (List.isEmpty_iff.mpr hword)
  · rw [complete_of_word _ hword, repair_endsAfter hnames]
    refine ⟨_, rfl, pairwise_endsAfter _ _, fun s => ?_⟩
    rw [mem_endsAfter, mem_candidates_names]

/-- A name that goes on after the word, and one that is that of a built-in function. -/
theorem completion_offers_exactly_shadowed :
    let h := (World.fresh.heap.bind 0 (text "lemon") (.int 1)).bind 0 (text "len") (.int 2)
    (∀ name, (h.get? 0 name).isSome = true → ∀ b ∈ name, isLetter b = true) ∧
    complete (h.names 0) "puts(le".toList 7 = ([text "mon", text "n", text "t"], 2) ∧
    ∀ s, s ∈ [text "mon", text "n", text "t"] ↔ s ≠ [] ∧ Completable h 0 (text "le" ++ s) := by
  intro h
  have hlisted : ∀ name ∈ h.names 0, ∀ b ∈ name, isLetter b = true := by
    decide +kernel
  have hnames : ∀ name, (h.get? 0 name).isSome = true → ∀ b ∈ name, isLetter b = true :=
    fun name hname => hlisted name ((h.mem_names_iff 0 name).mpr hname)
  have hcomplete : complete (h.names 0) "puts(le".toList 7 =
      ([text "mon", text "n", text "t"], 2) := by
    decide +kernel
  obtain ⟨word, hword, hnone, hsome⟩ := completion_offers_exactly h 0 hnames "puts(le".toList 7
  have hne : word ≠ [] := by
    intro hempty
    cases hcomplete.symm.trans (hnone hempty)
  obtain ⟨ends, hends, -, hmem⟩ := hsome hne
  obtain ⟨rfl, hlength⟩ := Prod.mk.inj (hcomplete.symm.trans hends)
  obtain rfl : word = ['l', 'e'] := by
    rw [List.suffix_iff_eq_drop.mp hword.ends, ← hlength]
    rfl
  exact ⟨hnames, hcomplete, hmem⟩

end Monkey
