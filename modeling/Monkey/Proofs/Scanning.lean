import Monkey.Proofs.Grammar

/-!
# The terminals of a source

A source is scanned from left to right: blanks are passed over, and the rest starts
with a lexeme. Where a token stands does not bear on which terminals come after it, so
`terminals` obeys an equation on texts alone (`terminals_of_cons`), from which the
terminals of a given text are computed token by token.

A terminal that scanning yields is `Lexical`: it is no end token, its literal is the
spelling of its kind or, for a name, an integer and a string, one that the kind
allows.
-/

namespace Monkey

/-- A terminal that can stand in a source. -/
def Terminal.Lexical (t : Terminal) : Prop :=
  match t.kind with
  | .eof => False
  | .illegal => True
  | .ident => t.literal ≠ [] ∧ t.literal.all isLetter = true ∧ Kind.ofWord t.literal = .ident
  | .int => t.literal ≠ [] ∧ t.literal.all Text.isDigit = true
  | .str => t.literal.all isUnquoted = true
  | k => t.literal = k.spelling

/-- A lexical terminal is no end token. -/
theorem Terminal.Lexical.kind_ne_eof {t : Terminal} (h : t.Lexical) : t.kind ≠ .eof := by
  intro hk
  unfold Terminal.Lexical at h
  rw [hk] at h
  exact h

/-- The terminal of a lexeme. -/
def Lexeme.terminal (l : Lexeme) : Terminal :=
  ⟨l.kind, l.literal⟩

/-! ## Lexemes -/

/-- A word is a name or reserved; if it is reserved, it spells its kind. -/
theorem ofWord_cases (w : Text) :
    Kind.ofWord w = .ident ∨ (Kind.ofWord w).isKeyword = true ∧ w = (Kind.ofWord w).spelling := by
  unfold Kind.ofWord keywords
  simp only [List.lookup_cons, List.lookup_nil]
  repeat' split
  all_goals first
    | exact .inl rfl
    | exact .inr ⟨rfl, eq_of_beq ‹_›⟩

/-- A word is a lexical name or keyword. -/
theorem lexical_word {w : Text} (hne : w ≠ []) (hw : w.all isLetter = true) :
    (Terminal.mk (Kind.ofWord w) w).Lexical := by
  rcases ofWord_cases w with hk | ⟨hk, hspell⟩
  · unfold Terminal.Lexical
    rw [hk]
    exact ⟨hne, hw, rfl⟩
  · revert hk hspell
    unfold Terminal.Lexical
    cases Kind.ofWord w <;> intro hk hspell <;> first | exact hspell | cases hk

theorem takeWhile_cons_ne_nil {p : UInt8 → Bool} {b : UInt8} (hb : p b = true) (rest : Text) :
    (b :: rest).takeWhile p ≠ [] := by
  rw [List.takeWhile_cons_of_pos hb]
  exact List.cons_ne_nil _ _

/-- The kind of a byte spells as that byte. -/
theorem spelling_ofByte {b : UInt8} {k : Kind} (h : Kind.ofByte? b = some k) :
    k.spelling = [b] ∧ (Terminal.mk k [b]).Lexical := by
  have hb : b = UInt8.ofNat b.toNat := (UInt8.ofNat_toNat).symm
  unfold Kind.ofByte? at h
  split at h <;> cases h <;> (rename_i hn; rw [hn] at hb; subst hb; exact ⟨rfl, rfl⟩)

/-- An operator of two bytes spells as them. -/
theorem spelling_withEquals {k double : Kind} (h : k.withEquals? = some double) :
    double.spelling = k.spelling ++ [0x3d] := by
  cases k <;> cases h <;> rfl

/-- What is not quoted, a number or a word is a lexical operator, delimiter or illegal rune. -/
theorem lexical_symbol (b : UInt8) (rest : Text) : (Lexeme.symbol b rest).terminal.Lexical := by
  unfold Lexeme.symbol
  split
  · rename_i k hk
    obtain ⟨hspell, hlexical⟩ := spelling_ofByte hk
    split
    · rename_i double hdouble _
      have hboth := spelling_withEquals hdouble
      rw [hspell] at hboth
      cases k <;> cases hdouble <;> exact hboth.symm
    · exact hlexical
  · trivial

/-- Every lexeme is a terminal of the language, or an illegal one. -/
theorem lexical_read (b : UInt8) (rest : Text) : (Lexeme.read b rest).terminal.Lexical := by
  unfold Lexeme.read
  split
  · exact List.all_takeWhile
  · split
    · rename_i hdigit
      exact ⟨takeWhile_cons_ne_nil hdigit rest, List.all_takeWhile⟩
    · split
      · rename_i hletter
        exact lexical_word (takeWhile_cons_ne_nil hletter rest) List.all_takeWhile
      · exact lexical_symbol b rest

/-- Every lexeme takes at least one byte. -/
theorem size_read_pos (b : UInt8) (rest : Text) : 0 < (Lexeme.read b rest).size := by
  unfold Lexeme.read
  split
  · unfold Lexeme.string
    exact Nat.lt_add_right _ (Nat.lt_add_right _ Nat.one_pos)
  · split
    · rename_i hdigit
      exact List.length_pos_iff.mpr (takeWhile_cons_ne_nil hdigit rest)
    · split
      · rename_i hletter
        exact List.length_pos_iff.mpr (takeWhile_cons_ne_nil hletter rest)
      · unfold Lexeme.symbol
        split
        · split <;> exact Nat.succ_pos _
        · unfold Text.firstRune
          split
          · show 0 < (String.utf8EncodeChar _).length
            rw [String.length_utf8EncodeChar]
            exact Char.utf8Size_pos _
          · exact Nat.one_pos

/-! ## Cursors -/

namespace Cursor

theorem rest_skipBlanks (c : Cursor) : c.skipBlanks.rest = c.rest.dropWhile isBlank := by
  have hsplit : c.rest.takeWhile isBlank ++ c.rest.dropWhile isBlank = c.rest :=
    List.takeWhile_append_dropWhile
  calc c.rest.drop (c.rest.takeWhile isBlank).length
      = (c.rest.takeWhile isBlank ++ c.rest.dropWhile isBlank).drop
          (c.rest.takeWhile isBlank).length := by rw [hsplit]
    _ = c.rest.dropWhile isBlank := List.drop_left

/-- When only blanks are left, the end token comes next. -/
theorem next_of_nil {c : Cursor} (h : c.rest.dropWhile isBlank = []) : c.next.1.kind = .eof := by
  rw [← rest_skipBlanks] at h
  unfold next read
  rw [h]

/-- Otherwise the next token is the lexeme after the blanks. -/
theorem next_of_cons {c : Cursor} {b : UInt8} {rest : Text}
    (h : c.rest.dropWhile isBlank = b :: rest) :
    c.next.1.terminal = (Lexeme.read b rest).terminal ∧
      c.next.2.rest = (b :: rest).drop (Lexeme.read b rest).size := by
  rw [← rest_skipBlanks] at h
  unfold next read
  rw [h]
  refine ⟨rfl, ?_⟩
  show c.skipBlanks.rest.drop _ = _
  rw [h]

/-- What is left after a token is shorter. -/
theorem length_rest_lt {c : Cursor} {b : UInt8} {rest : Text}
    (h : c.rest.dropWhile isBlank = b :: rest) : c.next.2.rest.length < c.rest.length := by
  have hle := (List.dropWhile_suffix (l := c.rest) isBlank).length_le
  have hpos := size_read_pos b rest
  rw [(next_of_cons h).2, List.length_drop]
  rw [h] at hle
  simp only [List.length_cons] at hle ⊢
  omega

/-- A token after the blanks is no end token. -/
theorem kind_next_ne {c : Cursor} {b : UInt8} {rest : Text}
    (h : c.rest.dropWhile isBlank = b :: rest) : c.next.1.kind ≠ .eof := by
  have hlexical := lexical_read b rest
  rw [← (next_of_cons h).1] at hlexical
  exact hlexical.kind_ne_eof

/-- The tokens are those before the end, which are lexical, and the end token. -/
theorem tokensUpTo_eq (n : Nat) (c : Cursor) (hn : c.rest.length ≤ n) :
    ∃ inner eof, (c.tokensUpTo n).1 = inner ++ [eof] ∧ eof.kind = .eof ∧
      ∀ t ∈ inner, t.terminal.Lexical := by
  induction n generalizing c with
  | zero =>
      have hnil := List.eq_nil_of_length_eq_zero (Nat.le_zero.mp hn)
      refine ⟨[], c.next.1, rfl, next_of_nil ?_, fun _ ht => absurd ht List.not_mem_nil⟩
      rw [hnil]
      rfl
  | succ n ih =>
      cases hrest : c.rest.dropWhile isBlank with
      | nil =>
          refine ⟨[], c.next.1, ?_, next_of_nil hrest, fun _ ht => absurd ht List.not_mem_nil⟩
          show (if c.next.1.kind = .eof then _ else _ : List Token × Cursor).1 = _
          rw [if_pos (next_of_nil hrest)]
          rfl
      | cons b rest =>
          -- a token takes at least one byte, so the turns left suffice
          have hlt := length_rest_lt hrest
          obtain ⟨inner, eof, htokens, heof, hinner⟩ := ih c.next.2 (by omega)
          refine ⟨c.next.1 :: inner, eof, ?_, heof, ?_⟩
          · show (if c.next.1.kind = .eof then _ else _ : List Token × Cursor).1 = _
            rw [if_neg (kind_next_ne hrest)]
            exact congrArg (c.next.1 :: ·) htokens
          · rw [List.forall_mem_cons]
            refine ⟨?_, hinner⟩
            rw [(next_of_cons hrest).1]
            exact lexical_read b rest

/-- The terminals at a cursor. -/
def terminalsUpTo (n : Nat) (c : Cursor) : List Terminal :=
  (c.tokensUpTo n).1.dropLast.map Token.terminal

theorem terminalsUpTo_of_nil {n : Nat} {c : Cursor} (h : c.rest.dropWhile isBlank = []) :
    c.terminalsUpTo n = [] := by
  unfold terminalsUpTo
  cases n with
  | zero => rfl
  | succ n =>
      rw [show c.tokensUpTo (n + 1) = if c.next.1.kind = .eof then _ else _ from rfl,
        if_pos (next_of_nil h)]
      rfl

/-- With a lexeme ahead, its terminal comes first. -/
theorem terminalsUpTo_of_cons {n : Nat} {c : Cursor} {b : UInt8} {rest : Text}
    (hn : c.rest.length ≤ n + 1) (h : c.rest.dropWhile isBlank = b :: rest) :
    c.terminalsUpTo (n + 1) = (Lexeme.read b rest).terminal :: c.next.2.terminalsUpTo n := by
  have hlt := length_rest_lt h
  obtain ⟨inner, eof, htokens, -, -⟩ := tokensUpTo_eq n c.next.2 (by omega)
  unfold terminalsUpTo
  rw [show c.tokensUpTo (n + 1) = if c.next.1.kind = .eof then _ else _ from rfl,
    if_neg (kind_next_ne h)]
  show (c.next.1 :: (c.next.2.tokensUpTo n).1).dropLast.map Token.terminal = _
  rw [htokens, ← (next_of_cons h).1, List.dropLast_concat, ← List.cons_append,
    List.dropLast_concat]
  rfl

/-- The terminals depend only on what is left of the source. -/
theorem terminalsUpTo_congr {n m : Nat} {c d : Cursor} (hcd : c.rest = d.rest)
    (hn : c.rest.length ≤ n) (hm : d.rest.length ≤ m) : c.terminalsUpTo n = d.terminalsUpTo m := by
  induction n generalizing m c d with
  | zero =>
      have hc : c.rest.dropWhile isBlank = [] := by
        rw [List.eq_nil_of_length_eq_zero (Nat.le_zero.mp hn)]
        rfl
      rw [terminalsUpTo_of_nil hc, terminalsUpTo_of_nil (hcd ▸ hc)]
  | succ n ih =>
      cases hrest : c.rest.dropWhile isBlank with
      | nil => rw [terminalsUpTo_of_nil hrest, terminalsUpTo_of_nil (hcd ▸ hrest)]
      | cons b rest =>
          have hrest' : d.rest.dropWhile isBlank = b :: rest := hcd ▸ hrest
          have hlt := length_rest_lt hrest
          have hlt' := length_rest_lt hrest'
          obtain ⟨m, rfl⟩ : ∃ m', m = m' + 1 := ⟨m - 1, by omega⟩
          rw [terminalsUpTo_of_cons hn hrest, terminalsUpTo_of_cons hm hrest']
          have hsame : c.next.2.rest = d.next.2.rest := by
            rw [(next_of_cons hrest).2, (next_of_cons hrest').2]
          rw [ih (m := m) hsame (by omega) (by omega)]

end Cursor

/-! ## Sources -/

/-- A source with only blanks has no terminals. -/
theorem terminals_of_nil {s : Text} (h : s.dropWhile isBlank = []) : terminals s = [] :=
  Cursor.terminalsUpTo_of_nil (c := .ofSource s) h

/-- The terminals of a source: its first lexeme, and the terminals of the rest. -/
theorem terminals_of_cons {s : Text} {b : UInt8} {rest : Text}
    (h : s.dropWhile isBlank = b :: rest) :
    terminals s = (Lexeme.read b rest).terminal
      :: terminals ((b :: rest).drop (Lexeme.read b rest).size) := by
  have hlt := Cursor.length_rest_lt (c := .ofSource s) h
  obtain ⟨n, hn⟩ : ∃ n, s.length = n + 1 := ⟨s.length - 1, by
    have : (Cursor.ofSource s).rest.length = s.length := rfl
    omega⟩
  show Cursor.terminalsUpTo s.length (.ofSource s) = _
  have hsame : (Cursor.ofSource s).next.2.rest
      = (Cursor.ofSource ((b :: rest).drop (Lexeme.read b rest).size)).rest :=
    (Cursor.next_of_cons (c := .ofSource s) h).2
  have hle : (Cursor.ofSource s).next.2.rest.length ≤ n := by
    rw [show (Cursor.ofSource s).rest.length = n + 1 from hn] at hlt
    exact Nat.le_of_lt_succ hlt
  rw [hn, Cursor.terminalsUpTo_of_cons (c := .ofSource s) (Nat.le_of_eq hn) h,
    Cursor.terminalsUpTo_congr hsame hle (Nat.le_refl _)]
  rfl

/-- Every terminal of a source is lexical. -/
theorem lexical_of_mem_terminals {s : Text} {t : Terminal} (ht : t ∈ terminals s) : t.Lexical := by
  obtain ⟨inner, eof, htokens, -, hinner⟩ :=
    Cursor.tokensUpTo_eq s.length (.ofSource s) (Nat.le_refl _)
  have hall : terminals s = inner.map Token.terminal := by
    show ((Cursor.ofSource s).tokensUpTo s.length).1.dropLast.map Token.terminal = _
    rw [htokens, List.dropLast_concat]
  rw [hall] at ht
  obtain ⟨token, hmem, rfl⟩ := List.mem_map.mp ht
  exact hinner token hmem

/-! ## Scanning what is written

Each token that is written before a text that does not go on with it is scanned as that
token. -/

/-- A text that goes on no word and no numeral before it. -/
def Apart (s : Text) : Prop :=
  s.head?.any (fun b => isLetter b || Text.isDigit b) = false

theorem Apart.class_head {s : Text} (h : Apart s) {b : UInt8} (hb : b ∈ s.head?) :
    isLetter b = false ∧ Text.isDigit b = false := by
  rw [Apart, Option.mem_def.mp hb] at h
  exact Bool.or_eq_false_iff.mp h

/-- What holds of each of the 256 bytes holds of a byte. -/
theorem forall_byte {P : UInt8 → Prop} (h : ∀ i : Fin 256, P ⟨⟨i⟩⟩) (b : UInt8) : P b :=
  h b.toBitVec.toFin

theorem class_of_letter (b : UInt8) : isLetter b = true →
    isBlank b = false ∧ b ≠ 0x22 ∧ Text.isDigit b = false ∧ b ≠ 0x3b ∧ b ≠ 0x3d := by
  revert b
  refine forall_byte ?_
  decide +kernel

theorem class_of_digit (b : UInt8) : Text.isDigit b = true →
    isBlank b = false ∧ b ≠ 0x22 ∧ b ≠ 0x3b ∧ b ≠ 0x3d := by
  revert b
  refine forall_byte ?_
  decide +kernel

theorem class_of_symbol (b : UInt8) : (Kind.ofByte? b).isSome = true →
    isBlank b = false ∧ b ≠ 0x22 ∧ Text.isDigit b = false ∧ isLetter b = false := by
  revert b
  refine forall_byte ?_
  decide +kernel

/-- A blank before anything adds no terminal. -/
theorem terminals_blank {b : UInt8} (hb : isBlank b = true) (s : Text) :
    terminals (b :: s) = terminals s := by
  have hdrop : (b :: s).dropWhile isBlank = s.dropWhile isBlank := List.dropWhile_cons_of_pos hb
  cases hs : s.dropWhile isBlank with
  | nil => rw [terminals_of_nil hs, terminals_of_nil (hdrop.trans hs)]
  | cons c rest => rw [terminals_of_cons hs, terminals_of_cons (hdrop.trans hs)]

/-- Otherwise the first terminal is that of the first lexeme. -/
theorem terminals_read {b : UInt8} (hb : isBlank b = false) (s : Text) :
    terminals (b :: s) = (Lexeme.read b s).terminal
      :: terminals ((b :: s).drop (Lexeme.read b s).size) :=
  terminals_of_cons (List.dropWhile_cons_of_neg (by rw [hb]; decide))

/-- A run of bytes of one class ends where the next byte is not of the class. -/
theorem takeWhile_append_eq {p : UInt8 → Bool} {w s : Text} (hw : w.all p = true)
    (hs : ∀ b ∈ s.head?, p b = false) : (w ++ s).takeWhile p = w := by
  rw [List.takeWhile_append_of_pos (List.all_eq_true.mp hw)]
  cases s with
  | nil => exact List.append_nil w
  | cons b s =>
      rw [List.takeWhile_cons_of_neg (by rw [hs b rfl]; decide), List.append_nil]

/-- A word is scanned whole. -/
theorem terminals_word {w s : Text} (hne : w ≠ []) (hw : w.all isLetter = true) (hs : Apart s) :
    terminals (w ++ s) = ⟨Kind.ofWord w, w⟩ :: terminals s := by
  have htake := takeWhile_append_eq hw fun b hb => (hs.class_head hb).1
  cases w with
  | nil => exact absurd rfl hne
  | cons b w =>
      have hletter : isLetter b = true := List.all_eq_true.mp hw b (List.mem_cons_self ..)
      obtain ⟨hblank, hquote, hdigit, -⟩ := class_of_letter b hletter
      have hread : Lexeme.read b (w ++ s) = ⟨Kind.ofWord (b :: w), b :: w, (b :: w).length⟩ := by
        unfold Lexeme.read
        rw [if_neg hquote, if_neg (by rw [hdigit]; decide), if_pos hletter, ← List.cons_append,
          htake]
      rw [List.cons_append, terminals_read hblank, hread, ← List.cons_append, List.drop_left]
      rfl

/-- A numeral is scanned whole. -/
theorem terminals_digits {w s : Text} (hne : w ≠ []) (hw : w.all Text.isDigit = true)
    (hs : Apart s) : terminals (w ++ s) = ⟨.int, w⟩ :: terminals s := by
  have htake := takeWhile_append_eq hw fun b hb => (hs.class_head hb).2
  cases w with
  | nil => exact absurd rfl hne
  | cons b w =>
      have hdigit : Text.isDigit b = true := List.all_eq_true.mp hw b (List.mem_cons_self ..)
      obtain ⟨hblank, hquote, -⟩ := class_of_digit b hdigit
      have hread : Lexeme.read b (w ++ s) = ⟨.int, b :: w, (b :: w).length⟩ := by
        unfold Lexeme.read
        rw [if_neg hquote, if_pos hdigit, ← List.cons_append, htake]
      rw [List.cons_append, terminals_read hblank, hread, ← List.cons_append, List.drop_left]
      rfl

theorem all_isUnquoted_iff {content : Text} : content.all isUnquoted = true ↔ 0x22 ∉ content := by
  rw [List.all_eq_true]
  constructor
  · intro hall hmem
    exact absurd (hall _ hmem) (by decide)
  · intro hnone b hb
    refine decide_eq_true ?_
    rintro rfl
    exact hnone hb

/-- A string ends at the first quote. -/
theorem string_closed {content : Text} (hc : content.all isUnquoted = true) (s : Text) :
    Lexeme.string (content ++ 0x22 :: s) = ⟨.str, content, content.length + 1 + 1⟩ := by
  have htake : (content ++ 0x22 :: s).takeWhile isUnquoted = content :=
    takeWhile_append_eq hc fun b hb => by cases hb; rfl
  have hlt : content.length < (content ++ 0x22 :: s).length := by
    rw [List.length_append, List.length_cons]
    omega
  unfold Lexeme.string
  simp only [htake, if_pos hlt]
  rw [Nat.add_comm 1]

/-- A string without a second quote goes on to the end. -/
theorem string_unclosed {content : Text} (hc : content.all isUnquoted = true) :
    Lexeme.string content = ⟨.str, content, content.length + 1⟩ := by
  have htake : content.takeWhile isUnquoted = content := by
    have h := takeWhile_append_eq (s := []) hc nofun
    rwa [List.append_nil] at h
  unfold Lexeme.string
  simp only [htake, if_neg (Nat.lt_irrefl content.length)]
  rw [Nat.add_comm 1]

/-- A string is scanned up to its closing quote. -/
theorem terminals_string {content : Text} (hc : content.all isUnquoted = true) (s : Text) :
    terminals (text "\"" ++ content ++ text "\"" ++ s) = ⟨.str, content⟩ :: terminals s := by
  have hread : Lexeme.read 0x22 (content ++ 0x22 :: s)
      = ⟨.str, content, content.length + 1 + 1⟩ := by
    rw [Lexeme.read, if_pos rfl]
    exact string_closed hc s
  have htext : text "\"" ++ content ++ text "\"" ++ s = 0x22 :: (content ++ 0x22 :: s) := by
    rw [List.append_assoc, List.append_assoc]
    rfl
  rw [htext, terminals_read rfl, hread]
  show _ :: terminals ((content ++ 0x22 :: s).drop (content.length + 1)) = _
  rw [← List.drop_drop, List.drop_left]
  rfl

/-- An operator or delimiter of one byte, if it is not the first half of another. -/
theorem terminals_symbol {b : UInt8} {k : Kind} (hk : Kind.ofByte? b = some k) {s : Text}
    (hs : k.withEquals? = none ∨ s.head? ≠ some 0x3d) :
    terminals (b :: s) = k.terminal :: terminals s := by
  obtain ⟨hblank, hquote, hdigit, hletter⟩ := class_of_symbol b (by rw [hk]; rfl)
  have hread : Lexeme.read b s = ⟨k, [b], 1⟩ := by
    unfold Lexeme.read
    rw [if_neg hquote, if_neg (by rw [hdigit]; decide), if_neg (by rw [hletter]; decide),
      Lexeme.symbol, hk]
    dsimp only
    split
    · rename_i double hdouble heq
      rcases hs with hnone | hne
      · rw [hnone] at hdouble
        cases hdouble
      · exact absurd heq hne
    · rfl
  rw [terminals_read hblank, hread, Kind.terminal, (spelling_ofByte hk).1]
  rfl

/-- An operator of two bytes. -/
theorem terminals_double {b : UInt8} {k double : Kind} (hk : Kind.ofByte? b = some k)
    (hdouble : k.withEquals? = some double) (s : Text) :
    terminals (b :: 0x3d :: s) = double.terminal :: terminals s := by
  obtain ⟨hblank, hquote, hdigit, hletter⟩ := class_of_symbol b (by rw [hk]; rfl)
  have hread : Lexeme.read b (0x3d :: s) = ⟨double, [b, 0x3d], 2⟩ := by
    unfold Lexeme.read
    rw [if_neg hquote, if_neg (by rw [hdigit]; decide), if_neg (by rw [hletter]; decide),
      Lexeme.symbol, hk]
    dsimp only
    rw [hdouble]
    rfl
  rw [terminals_read hblank, hread, Kind.terminal, spelling_withEquals hdouble,
    (spelling_ofByte hk).1]
  rfl

end Monkey
