import Monkey.Proofs.Tiling
import Monkey.Repl.Lines

/-!
# Counting braces

Whether lines are a whole input is decided by counting their braces, byte by byte, with a flag that
every quote flips. The scanner finds the same braces in another way. Between tokens and in all
tokens but strings there are no quotes, so the flag is down where a token starts; a string lifts it
and, if it is closed, drops it again. So the count passes over each token as a whole
(`balance_token`), and along a tiling of the text it adds up to the brace tokens (`balance_tiling`).

A text is also a sequence of characters, some of several bytes. None of the bytes of these is a
quote or a brace, so that counting characters comes to the same (`charBalance_runes`).
-/

namespace Monkey

/-! ## Bytes that do not count -/

/-- Whether a byte is neither a quote nor a brace. -/
def isNeutral (b : UInt8) : Bool :=
  b ≠ 0x22 && b ≠ 0x7b && b ≠ 0x7d

/-- The count passes over bytes that are neither quotes nor braces. -/
theorem balanceFrom_neutral {bytes : Text} (h : bytes.all isNeutral = true) (quoted : Bool)
    (rest : Text) : balanceFrom quoted (bytes ++ rest) = balanceFrom quoted rest := by
  induction bytes with
  | nil => rfl
  | cons b bytes ih =>
      obtain ⟨hb, hbytes⟩ := Bool.and_eq_true_iff.mp h
      simp only [isNeutral, ne_eq, Bool.and_eq_true, decide_eq_true_eq] at hb
      obtain ⟨⟨hquote, hopen⟩, hclose⟩ := hb
      rw [List.cons_append, balanceFrom, if_neg hquote, if_neg hopen, if_neg hclose, ih hbytes,
        ite_self]

/-- Between quotes, the count passes over everything up to the next quote. -/
theorem balanceFrom_content {content : Text} (h : 0x22 ∉ content) (rest : Text) :
    balanceFrom true (content ++ rest) = balanceFrom true rest := by
  induction content with
  | nil => rfl
  | cons b content ih =>
      have hquote : b ≠ 0x22 := (List.ne_of_not_mem_cons h).symm
      rw [List.cons_append, balanceFrom, if_neg hquote, if_pos rfl,
        ih (List.not_mem_of_not_mem_cons h)]

theorem isNeutral_of_blank (b : UInt8) : isBlank b = true → isNeutral b = true := by
  revert b
  refine forall_byte ?_
  decide +kernel

theorem isNeutral_of_letter (b : UInt8) : isLetter b = true → isNeutral b = true := by
  revert b
  refine forall_byte ?_
  decide +kernel

theorem isNeutral_of_digit (b : UInt8) : Text.isDigit b = true → isNeutral b = true := by
  revert b
  refine forall_byte ?_
  decide +kernel

theorem isNeutral_of_high (b : UInt8) : 0x80 ≤ b → isNeutral b = true := by
  revert b
  refine forall_byte ?_
  decide +kernel

/-- A byte that starts neither a string nor a symbol does not count. -/
theorem isNeutral_of_other (b : UInt8) : b ≠ 0x22 → Kind.ofByte? b = none → isNeutral b = true := by
  revert b
  refine forall_byte ?_
  decide +kernel

theorem all_neutral {p : UInt8 → Bool} (hp : ∀ b, p b = true → isNeutral b = true) {bytes : Text}
    (h : bytes.all p = true) : bytes.all isNeutral = true :=
  List.all_eq_true.mpr fun b hb => hp b (List.all_eq_true.mp h b hb)

/-! ## Characters -/

/-- The encoding of a character is one byte, its number, or has only bytes that are no
characters. -/
theorem encode_cases (c : Char) :
    (c.val.toNat < 0x80 ∧ String.utf8EncodeChar c = [UInt8.ofNat c.val.toNat]) ∨
      (0x80 ≤ c.val.toNat ∧ ∀ b ∈ String.utf8EncodeChar c, 0x80 ≤ b) := by
  by_cases hc : c.val.toNat < 0x80
  · exact .inl ⟨hc, Text.encode_one rfl hc⟩
  · refine .inr ⟨Nat.le_of_not_lt hc, ?_⟩
    have hhigh (n : Nat) (hlow : 0x80 ≤ n) (hn : n < 0x100) : 0x80 ≤ UInt8.ofNat n := by
      rw [UInt8.le_iff_toNat_le, UInt8.toNat_ofNat', Nat.mod_eq_of_lt hn]
      exact hlow
    rw [String.utf8EncodeChar, if_neg (by omega)]
    repeat' split
    all_goals
      simp only [List.forall_mem_cons, List.not_mem_nil, false_implies, implies_true, and_true]
    · exact ⟨hhigh _ (by omega) (by omega), hhigh _ (by omega) (by omega)⟩
    · exact ⟨hhigh _ (by omega) (by omega), hhigh _ (by omega) (by omega),
        hhigh _ (by omega) (by omega)⟩
    · exact ⟨hhigh _ (by omega) (by omega), hhigh _ (by omega) (by omega),
        hhigh _ (by omega) (by omega), hhigh _ (by omega) (by omega)⟩

/-- If the first byte of a rune does not count, none of its bytes does. -/
theorem all_neutral_firstRune {b : UInt8} (hb : isNeutral b = true) (rest : Text) :
    (Text.firstRune b rest).all isNeutral = true := by
  have hstarts := Text.prefix_firstRune b rest
  rw [Text.firstRune] at hstarts ⊢
  split at hstarts
  · rename_i c _ _
    rcases encode_cases c with ⟨-, hone⟩ | ⟨-, hhigh⟩
    · rw [hone] at hstarts ⊢
      obtain ⟨hsame, -⟩ := List.cons_prefix_cons.mp hstarts
      rw [hsame]
      exact List.all_eq_true.mpr fun _ hx => List.mem_singleton.mp hx ▸ hb
    · exact List.all_eq_true.mpr fun x hx => isNeutral_of_high x (hhigh x hx)
  · exact List.all_eq_true.mpr fun _ hx => List.mem_singleton.mp hx ▸ hb

/-! ## Tokens -/

/-- What has the kind of no symbol is the rune that the text starts with. -/
theorem symbol_of_illegal {b : UInt8} {rest : Text} (h : (Lexeme.symbol b rest).kind = .illegal) :
    Kind.ofByte? b = none ∧ (Lexeme.symbol b rest).literal = Text.firstRune b rest := by
  unfold Lexeme.symbol at *
  cases hb : Kind.ofByte? b with
  | none => exact ⟨rfl, rfl⟩
  | some k =>
      rw [hb] at h
      have hspelling := (spelling_ofByte hb).1
      dsimp only at h
      split at h
      · rename_i double hdouble _
        have hdouble := spelling_withEquals hdouble
        rw [show double = .illegal from h, hspelling] at hdouble
        cases hdouble
      · rw [show k = .illegal from h] at hspelling
        cases hspelling

/-- An illegal token has neither quotes nor braces. -/
theorem all_neutral_illegal {b : UInt8} {rest : Text} (h : (Lexeme.read b rest).kind = .illegal) :
    (Lexeme.read b rest).literal.all isNeutral = true := by
  unfold Lexeme.read at *
  by_cases hquote : b = 0x22
  · rw [if_pos hquote] at h
    cases h
  rw [if_neg hquote] at h ⊢
  by_cases hdigit : Text.isDigit b = true
  · rw [if_pos hdigit] at h
    cases h
  rw [if_neg hdigit] at h ⊢
  by_cases hletter : isLetter b = true
  · rw [if_pos hletter]
    exact all_neutral isNeutral_of_letter List.all_takeWhile
  rw [if_neg hletter] at h ⊢
  obtain ⟨hnone, hliteral⟩ := symbol_of_illegal h
  rw [hliteral]
  exact all_neutral_firstRune (isNeutral_of_other b hquote hnone) rest

/-- What a token of a kind adds to the count. -/
def Kind.braces : Kind → Int
  | .lbrace => 1
  | .rbrace => -1
  | _ => 0

/-- The count passes over a token that is no string like over its brace, if it is one. -/
theorem balance_plain {t : Terminal} (h : t.Lexical) (hstr : t.kind ≠ .str)
    (hillegal : t.kind = .illegal → t.literal.all isNeutral = true) (rest : Text) :
    balanceFrom false (t.literal ++ rest) = balanceFrom false rest + t.kind.braces := by
  obtain ⟨kind, literal⟩ := t
  have hneutral (hall : literal.all isNeutral = true) :
      balanceFrom false (literal ++ rest) = balanceFrom false rest + 0 := by
    rw [balanceFrom_neutral hall, Int.add_zero]
  cases kind with
  | eof => exact h.elim
  | str => exact absurd rfl hstr
  | illegal => exact hneutral (hillegal rfl)
  | ident => exact hneutral (all_neutral isNeutral_of_letter h.2.1)
  | int => exact hneutral (all_neutral isNeutral_of_digit h.2)
  | lbrace =>
      rw [show literal = [0x7b] from h]
      rfl
  | rbrace =>
      rw [show literal = [0x7d] from h]
      rfl
  | _ =>
      cases h
      exact hneutral (by decide)

/-- A string that is closed does not count. -/
theorem balance_string {content : Text} (h : 0x22 ∉ content) (rest : Text) :
    balanceFrom false (0x22 :: (content ++ [0x22]) ++ rest) = balanceFrom false rest := by
  rw [List.cons_append, List.append_assoc, balanceFrom, if_pos rfl, Bool.not_false,
    balanceFrom_content h, List.singleton_append, balanceFrom, if_pos rfl, Bool.not_true]

/-- Nor does a string that goes on to the end. -/
theorem balance_unclosed {content : Text} (h : 0x22 ∉ content) :
    balanceFrom false (0x22 :: content) = 0 := by
  rw [balanceFrom, if_pos rfl, Bool.not_false, ← List.append_nil content, balanceFrom_content h]
  rfl

/-- The count passes over a token like over its brace, if it is one. -/
theorem balance_token {t : Token} {bytes rest : Text} (h : t.Reads bytes rest) :
    balanceFrom false (bytes ++ rest) = balanceFrom false rest + t.kind.braces := by
  have hspelt := h.spelt
  obtain ⟨b, after, -, -, hterminal, -⟩ := h
  have hlexical := lexical_read b after
  have hillegal : t.kind = .illegal → t.literal.all isNeutral = true := by
    intro hkind
    rw [show t.kind = _ from congrArg Terminal.kind hterminal] at hkind
    rw [show t.literal = _ from congrArg Terminal.literal hterminal]
    exact all_neutral_illegal hkind
  rw [← hterminal] at hlexical
  by_cases hstr : t.kind = .str
  · obtain ⟨hcontent, rfl | ⟨rfl, rfl⟩⟩ := hspelt.string_cases hstr
    · rw [hstr, balance_string hcontent]
      exact (Int.add_zero _).symm
    · rw [hstr, List.append_nil, balance_unclosed hcontent]
      rfl
  · rw [← hspelt.literal_eq hstr]
    exact balance_plain hlexical hstr hillegal rest

/-! ## Texts -/

/-- How many tokens are of a kind. -/
def countKind (k : Kind) (ts : List Token) : Nat :=
  ts.countP fun t => t.kind = k

theorem countKind_braces (t : Token) (ts : List Token) :
    (countKind .lbrace (t :: ts) : Int) - countKind .rbrace (t :: ts) =
      countKind .lbrace ts - countKind .rbrace ts + t.kind.braces := by
  simp only [countKind, List.countP_cons]
  cases t.kind <;> simp [Kind.braces] <;> omega

/-- The balance of a text is that of its tokens. -/
theorem balance_tiling {p : Position} {source : Text} {ts : List Token} (h : Tiling p source ts) :
    balanceFrom false source = countKind .lbrace ts - countKind .rbrace ts := by
  induction h with
  | @done p gap hgap =>
      rw [← List.append_nil gap, balanceFrom_neutral (all_neutral isNeutral_of_blank hgap)]
      rfl
  | @token p gap bytes rest t ts hgap hreads hspan hrest ih =>
      rw [balanceFrom_neutral (all_neutral isNeutral_of_blank hgap), balance_token hreads, ih,
        countKind_braces]

/-! ## Characters that count -/

/-- The opening braces among characters minus the closing ones, except between quotes. The flag says
whether the characters start between quotes. -/
def charBalance (quoted : Bool) : List Char → Int
  | [] => 0
  | c :: rest =>
    if c = '\x22' then charBalance (!quoted) rest
    else if quoted then charBalance quoted rest
    else if c = '\x7b' then charBalance quoted rest + 1
    else if c = '\x7d' then charBalance quoted rest - 1
    else charBalance quoted rest

/-- A character of one byte is a quote or a brace just if the byte is. -/
theorem ofNat_eq_iff (b : UInt8) : b < 0x80 → (Char.ofNat b.toNat = '\x22' ↔ b = 0x22) ∧
    (Char.ofNat b.toNat = '\x7b' ↔ b = 0x7b) ∧ (Char.ofNat b.toNat = '\x7d' ↔ b = 0x7d) := by
  revert b
  refine forall_byte ?_
  decide +kernel

theorem charBalance_high {c : Char} (hc : 0x80 ≤ c.val.toNat) (quoted : Bool) (rest : List Char) :
    charBalance quoted (c :: rest) = charBalance quoted rest := by
  have hne {d : Char} (hd : d.val.toNat < 0x80) : c ≠ d := by
    rintro rfl
    omega
  rw [charBalance, if_neg (hne (by decide)), if_neg (hne (by decide)), if_neg (hne (by decide)),
    ite_self]

/-- A rune counts like its bytes, if no character starts at a byte that is a rune of its own. -/
theorem charBalance_rune {r : Text.Rune} (hr : ∀ b, r = .byte b → 0x80 ≤ b) {cs : List Char}
    {rest : Text} (h : ∀ quoted, charBalance quoted cs = balanceFrom quoted rest) (quoted : Bool) :
    charBalance quoted (r.shown :: cs) = balanceFrom quoted (r.bytes ++ rest) := by
  cases r with
  | byte b =>
      have hb := isNeutral_of_high b (hr b rfl)
      rw [Text.Rune.shown, charBalance_high (by decide), h, Text.Rune.bytes,
        balanceFrom_neutral (List.all_eq_true.mpr fun _ hx => List.mem_singleton.mp hx ▸ hb)]
  | char c =>
      rw [Text.Rune.shown, Text.Rune.bytes]
      rcases encode_cases c with ⟨hlow, hone⟩ | ⟨hhigh, hbytes⟩
      · have hnat : (UInt8.ofNat c.val.toNat).toNat = c.val.toNat := by
          rw [UInt8.toNat_ofNat', Nat.mod_eq_of_lt (by omega)]
        have hc : Char.ofNat (UInt8.ofNat c.val.toNat).toNat = c := by
          rw [hnat]
          exact Char.ofNat_toNat c
        obtain ⟨hquote, hopen, hclose⟩ := ofNat_eq_iff (UInt8.ofNat c.val.toNat)
          (by rw [UInt8.lt_iff_toNat_lt, hnat]; exact hlow)
        rw [hc] at hquote hopen hclose
        rw [hone, List.singleton_append, charBalance, balanceFrom]
        simp only [hquote, hopen, hclose, h]
      · rw [charBalance_high hhigh, h, balanceFrom_neutral]
        exact List.all_eq_true.mpr fun b hb => isNeutral_of_high b (hbytes b hb)

/-- A byte at which no character starts is no character. -/
theorem high_of_decode_none {b : UInt8} {rest : Text} (h : Text.decode? (b :: rest) = none) :
    0x80 ≤ b := by
  by_cases hb : b < 0x80
  · simp only [Text.decode?, if_pos hb] at h
    cases h
  · exact UInt8.not_lt.mp hb

theorem charBalance_runesUpTo (n : Nat) (t : Text) (hn : t.length ≤ n) (quoted : Bool) :
    charBalance quoted ((Text.runesUpTo n t).map Text.Rune.shown) = balanceFrom quoted t := by
  induction n generalizing t quoted with
  | zero =>
      rw [List.eq_nil_of_length_eq_zero (Nat.le_zero.mp hn)]
      rfl
  | succ n ih =>
      cases t with
      | nil => rfl
      | cons b rest =>
          rw [Text.runesUpTo]
          -- a brace or a quote is a rune of one byte, so no other rune has one among its bytes
          cases hdecode : Text.decode? (b :: rest) with
          | none =>
              have hrest := ih rest (Nat.le_of_succ_le_succ hn)
              exact charBalance_rune (fun _ hb => by cases hb; exact high_of_decode_none hdecode)
                hrest quoted
          | some found =>
              obtain ⟨c, after⟩ := found
              have htext := Text.decode?_eq_some hdecode
              have hshorter : after.length ≤ n := by
                have hlength := congrArg List.length htext
                have hpos := Char.utf8Size_pos c
                rw [List.length_append, String.length_utf8EncodeChar] at hlength
                omega
              rw [htext]
              exact charBalance_rune (fun _ hb => by cases hb) (ih after hshorter) quoted

/-- Counting characters is counting bytes. -/
theorem charBalance_runes (t : Text) :
    charBalance false (t.runes.map Text.Rune.shown) = braceBalance t :=
  charBalance_runesUpTo t.length t (Nat.le_refl _) false

/-! ## The balance of a source -/

/-- **The count of braces agrees with the scanner.** Whatever the source, also where it is no UTF-8
or a string goes on to its end, the balance of its braces is the number of its opening brace tokens
minus the number of its closing ones; and it is the same for the characters of the source, where a
byte at which none starts is shown as U+FFFD. -/
theorem braceBalance_counts_tokens (source : Text) :
    braceBalance source
        = countKind .lbrace (tokenize source) - countKind .rbrace (tokenize source) ∧
      braceBalance source = charBalance false (source.runes.map Text.Rune.shown) :=
  ⟨balance_tiling (tiling_tokens (.ofSource source)), (charBalance_runes source).symm⟩

example : braceBalance (text "\x7b\"\x7d") = 1 := by
  decide

end Monkey
