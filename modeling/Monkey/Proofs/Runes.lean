import Monkey.Text.Utf8

/-!
# Decoding is the inverse of encoding

A character that a text starts with is spelt by the bytes that it was decoded from: what `decode?`
takes off a text is the encoding of the character, and no byte is lost. The four forms of an
encoding are handled one by one. In each, the payloads of the bytes are the digits of the
character's number, so that the number gives the bytes back. The other way round, the encoding of
any character is decoded as that character (`decode?_encode`), so that where `decode?` finds nothing
no character starts.
-/

namespace Monkey.Text

/-- A byte that continues a rune has six bits of its own. -/
theorem tail?_eq_some {b : UInt8} {n : Nat} (h : tail? b = some n) :
    n < 64 ∧ b = UInt8.ofNat (n + 0x80) := by
  by_cases hb : 0x80 ≤ b ∧ b < 0xC0
  · rw [tail?, if_pos hb] at h
    obtain rfl := Option.some.inj h
    have hlow : 0x80 ≤ b.toNat := UInt8.le_iff_toNat_le.mp hb.1
    have hhigh : b.toNat < 0xC0 := UInt8.lt_iff_toNat_lt.mp hb.2
    refine ⟨by omega, ?_⟩
    rw [Nat.sub_add_cancel hlow, UInt8.ofNat_toNat]
  · rw [tail?, if_neg hb] at h
    cases h

theorem toNat_ofNat {n : Nat} (hn : n.isValidChar) : (Char.ofNat n).val.toNat = n := by
  rw [Char.ofNat, dif_pos hn]
  rfl

/-- What is decoded is the code point, and it is not too small for its bytes. -/
theorem scalar?_eq_some {least n : Nat} {c : Char} (h : scalar? least n = some c) :
    least ≤ n ∧ c.val.toNat = n := by
  by_cases hn : least ≤ n ∧ n.isValidChar
  · rw [scalar?, if_pos hn] at h
    cases h
    exact ⟨hn.1, toNat_ofNat hn.2⟩
  · rw [scalar?, if_neg hn] at h
    cases h

/-! ## The four forms

The number of a character is given by the payloads of its bytes, the first one on the left. -/

/-- Code points below 0x80 have one byte. -/
theorem encode_one {c : Char} {n : Nat} (hc : c.val.toNat = n) (hn : n < 0x80) :
    String.utf8EncodeChar c = [UInt8.ofNat n] := by
  rw [String.utf8EncodeChar, hc]
  exact if_pos (Nat.le_of_lt_succ hn)

/-- Code points of eleven bits have two bytes. -/
theorem encode_two {c : Char} {i j : Nat} (hc : c.val.toNat = i * 64 + j)
    (hleast : 0x80 ≤ i * 64 + j) (hi : i < 32) (hj : j < 64) :
    String.utf8EncodeChar c = [UInt8.ofNat (i + 0xC0), UInt8.ofNat (j + 0x80)] := by
  rw [String.utf8EncodeChar, hc, if_neg (by omega), if_pos (by omega),
    show (i * 64 + j) / 64 % 32 = i by omega, show (i * 64 + j) % 64 = j by omega]

/-- Code points of sixteen bits have three bytes. -/
theorem encode_three {c : Char} {i j k : Nat} (hc : c.val.toNat = (i * 64 + j) * 64 + k)
    (hleast : 0x800 ≤ (i * 64 + j) * 64 + k) (hi : i < 16) (hj : j < 64) (hk : k < 64) :
    String.utf8EncodeChar c =
      [UInt8.ofNat (i + 0xE0), UInt8.ofNat (j + 0x80), UInt8.ofNat (k + 0x80)] := by
  rw [String.utf8EncodeChar, hc, if_neg (by omega), if_neg (by omega), if_pos (by omega),
    show ((i * 64 + j) * 64 + k) / 4096 % 16 = i by omega,
    show ((i * 64 + j) * 64 + k) / 64 % 64 = j by omega,
    show ((i * 64 + j) * 64 + k) % 64 = k by omega]

/-- Code points of twenty-one bits have four bytes. -/
theorem encode_four {c : Char} {i j k l : Nat}
    (hc : c.val.toNat = ((i * 64 + j) * 64 + k) * 64 + l)
    (hleast : 0x10000 ≤ ((i * 64 + j) * 64 + k) * 64 + l) (hi : i < 8) (hj : j < 64) (hk : k < 64)
    (hl : l < 64) :
    String.utf8EncodeChar c = [UInt8.ofNat (i + 0xF0), UInt8.ofNat (j + 0x80),
      UInt8.ofNat (k + 0x80), UInt8.ofNat (l + 0x80)] := by
  rw [String.utf8EncodeChar, hc, if_neg (by omega), if_neg (by omega), if_neg (by omega),
    show (((i * 64 + j) * 64 + k) * 64 + l) / 262144 % 8 = i by omega,
    show (((i * 64 + j) * 64 + k) * 64 + l) / 4096 % 64 = j by omega,
    show (((i * 64 + j) * 64 + k) * 64 + l) / 64 % 64 = k by omega,
    show (((i * 64 + j) * 64 + k) * 64 + l) % 64 = l by omega]

/-! ## Decoding -/

/-- The payload of a first byte that is in the range of its form. -/
theorem lead_eq {a low high : UInt8} (hlow : ¬ a < low) (hhigh : a < high) :
    a.toNat - low.toNat < high.toNat - low.toNat ∧
      a = UInt8.ofNat (a.toNat - low.toNat + low.toNat) := by
  have hle : low.toNat ≤ a.toNat := Nat.le_of_not_lt fun h => hlow (UInt8.lt_iff_toNat_lt.mpr h)
  have hlt : a.toNat < high.toNat := UInt8.lt_iff_toNat_lt.mp hhigh
  refine ⟨by omega, ?_⟩
  rw [Nat.sub_add_cancel hle, UInt8.ofNat_toNat]

/-- A text that starts with a character is its encoding, and what comes after. -/
theorem decode?_eq_some {t after : Text} {c : Char} (h : decode? t = some (c, after)) :
    t = String.utf8EncodeChar c ++ after := by
  fun_cases decode? t with
  | case2 a rest ha =>
      simp only [decode?, if_pos ha] at h
      cases h
      have hlt : a.toNat < 0x80 := UInt8.lt_iff_toNat_lt.mp ha
      have hvalid : a.toNat.isValidChar := .inl (Nat.lt_trans hlt (by decide))
      rw [encode_one (toNat_ofNat hvalid) hlt, UInt8.ofNat_toNat]
      rfl
  | case5 a h80 hC0 b rest hE0 =>
      simp only [decode?, if_neg h80, if_neg hC0, if_pos hE0] at h
      obtain ⟨j, hb, h⟩ := Option.bind_eq_some_iff.mp h
      obtain ⟨c, hc, h⟩ := Option.bind_eq_some_iff.mp h
      cases h
      obtain ⟨hi, ha⟩ := lead_eq hC0 hE0
      obtain ⟨hj, rfl⟩ := tail?_eq_some hb
      obtain ⟨hleast, hc⟩ := scalar?_eq_some hc
      rw [encode_two hc hleast hi hj]
      exact congrArg (· :: _) ha
  | case7 a h80 hC0 b hE0 c rest hF0 =>
      simp only [decode?, if_neg h80, if_neg hC0, if_neg hE0, if_pos hF0] at h
      obtain ⟨j, hb, h⟩ := Option.bind_eq_some_iff.mp h
      obtain ⟨k, hc, h⟩ := Option.bind_eq_some_iff.mp h
      obtain ⟨ch, hch, h⟩ := Option.bind_eq_some_iff.mp h
      cases h
      obtain ⟨hi, ha⟩ := lead_eq hE0 hF0
      obtain ⟨hj, rfl⟩ := tail?_eq_some hb
      obtain ⟨hk, rfl⟩ := tail?_eq_some hc
      obtain ⟨hleast, hch⟩ := scalar?_eq_some hch
      rw [encode_three hch hleast hi hj hk]
      exact congrArg (· :: _) ha
  | case9 a h80 hC0 b hE0 c hF0 d rest hF8 =>
      simp only [decode?, if_neg h80, if_neg hC0, if_neg hE0, if_neg hF0, if_pos hF8] at h
      obtain ⟨j, hb, h⟩ := Option.bind_eq_some_iff.mp h
      obtain ⟨k, hc, h⟩ := Option.bind_eq_some_iff.mp h
      obtain ⟨l, hd, h⟩ := Option.bind_eq_some_iff.mp h
      obtain ⟨ch, hch, h⟩ := Option.bind_eq_some_iff.mp h
      cases h
      obtain ⟨hi, ha⟩ := lead_eq hF0 hF8
      obtain ⟨hj, rfl⟩ := tail?_eq_some hb
      obtain ⟨hk, rfl⟩ := tail?_eq_some hc
      obtain ⟨hl, rfl⟩ := tail?_eq_some hd
      obtain ⟨hleast, hch⟩ := scalar?_eq_some hch
      rw [encode_four hch hleast hi hj hk hl]
      exact congrArg (· :: _) ha
  | case1 => cases h
  | _ =>
      -- the first byte starts nothing, or the text ends before the encoding does
      simp only [decode?, *, if_true, if_false] at h
      cases h

/-- The first rune of a text is what the text starts with. -/
theorem prefix_firstRune (b : UInt8) (rest : Text) : firstRune b rest <+: b :: rest := by
  rw [firstRune]
  cases h : decode? (b :: rest) with
  | none => exact List.prefix_append [b] rest
  | some found => exact ⟨found.2, (decode?_eq_some h).symm⟩

/-! ## Encoding is undone -/

theorem toNat_byte {n : Nat} (hn : n < 0x100) : (UInt8.ofNat n).toNat = n :=
  UInt8.toNat_ofNat_of_lt' hn

/-- Six bits make a byte that continues a rune. -/
theorem tail?_ofNat {n : Nat} (hn : n < 64) : tail? (UInt8.ofNat (n + 0x80)) = some n := by
  have htoNat : (UInt8.ofNat (n + 0x80)).toNat = n + 0x80 := toNat_byte (by omega)
  have hrange : 0x80 ≤ UInt8.ofNat (n + 0x80) ∧ UInt8.ofNat (n + 0x80) < 0xC0 := by
    rw [UInt8.le_iff_toNat_le, UInt8.lt_iff_toNat_lt, htoNat]
    exact ⟨Nat.le_add_left _ _, Nat.add_lt_add_right hn 0x80⟩
  rw [tail?, if_pos hrange, htoNat, Nat.add_sub_cancel]

theorem scalar?_toNat {least n : Nat} {c : Char} (hleast : least ≤ n) (hc : c.val.toNat = n) :
    scalar? least n = some c := by
  subst hc
  rw [scalar?, if_pos ⟨hleast, c.valid⟩]
  exact congrArg some (Char.ofNat_toNat c)

/-- A first byte is in the range of its form and in none before it, and carries its payload. -/
theorem lead_ofNat {i : Nat} (low high : UInt8) (h : i + low.toNat < high.toNat) :
    (∀ other ≤ low, ¬ UInt8.ofNat (i + low.toNat) < other) ∧
      UInt8.ofNat (i + low.toNat) < high ∧
      (UInt8.ofNat (i + low.toNat)).toNat - low.toNat = i := by
  have htoNat : (UInt8.ofNat (i + low.toNat)).toNat = i + low.toNat :=
    toNat_byte (Nat.lt_trans h high.toNat_lt)
  refine ⟨?_, ?_, ?_⟩
  · intro other hother hlt
    rw [UInt8.lt_iff_toNat_lt, htoNat] at hlt
    have hle := UInt8.le_iff_toNat_le.mp hother
    omega
  · rw [UInt8.lt_iff_toNat_lt, htoNat]
    exact h
  · rw [htoNat, Nat.add_sub_cancel]

/-- A rune of one byte is decoded from its bytes. -/
theorem decode?_one {c : Char} {n : Nat} (hc : c.val.toNat = n) (hn : n < 0x80) (rest : Text) :
    decode? (String.utf8EncodeChar c ++ rest) = some (c, rest) := by
  have hlt : UInt8.ofNat n < 0x80 := by
    rw [UInt8.lt_iff_toNat_lt, toNat_byte (by omega)]
    exact hn
  rw [encode_one hc hn]
  simp only [List.singleton_append, decode?, if_pos hlt]
  rw [toNat_byte (by omega), ← hc]
  exact congrArg (fun c => some (c, rest)) (Char.ofNat_toNat c)

/-- A rune of two bytes is decoded from its bytes. -/
theorem decode?_two {c : Char} {i j : Nat} (hc : c.val.toNat = i * 64 + j)
    (hleast : 0x80 ≤ i * 64 + j) (hi : i < 32) (hj : j < 64) (rest : Text) :
    decode? (String.utf8EncodeChar c ++ rest) = some (c, rest) := by
  obtain ⟨hlow, hhigh, hlead⟩ := lead_ofNat 0xC0 0xE0 (Nat.add_lt_add_right hi 0xC0)
  have h80 := hlow 0x80 (by decide)
  have hC0 := hlow 0xC0 (by decide)
  rw [encode_two hc hleast hi hj]
  show decode? (UInt8.ofNat (i + UInt8.toNat 0xC0) :: _ :: rest) = _
  simp only [decode?, if_neg h80, if_neg hC0, if_pos hhigh, tail?_ofNat hj]
  show (scalar? 0x80
    (((UInt8.ofNat (i + UInt8.toNat 0xC0)).toNat - UInt8.toNat 0xC0) * 64 + j)).bind _ = _
  rw [hlead, scalar?_toNat hleast hc]
  rfl

/-- A rune of three bytes is decoded from its bytes. -/
theorem decode?_three {c : Char} {i j k : Nat} (hc : c.val.toNat = (i * 64 + j) * 64 + k)
    (hleast : 0x800 ≤ (i * 64 + j) * 64 + k) (hi : i < 16) (hj : j < 64) (hk : k < 64)
    (rest : Text) : decode? (String.utf8EncodeChar c ++ rest) = some (c, rest) := by
  obtain ⟨hlow, hhigh, hlead⟩ := lead_ofNat 0xE0 0xF0 (Nat.add_lt_add_right hi 0xE0)
  have h80 := hlow 0x80 (by decide)
  have hC0 := hlow 0xC0 (by decide)
  have hE0 := hlow 0xE0 (by decide)
  rw [encode_three hc hleast hi hj hk]
  show decode? (UInt8.ofNat (i + UInt8.toNat 0xE0) :: _ :: _ :: rest) = _
  simp only [decode?, if_neg h80, if_neg hC0, if_neg hE0, if_pos hhigh, tail?_ofNat hj,
    tail?_ofNat hk]
  show (scalar? 0x800 ((((UInt8.ofNat (i + UInt8.toNat 0xE0)).toNat - UInt8.toNat 0xE0) * 64 + j)
    * 64 + k)).bind _ = _
  rw [hlead, scalar?_toNat hleast hc]
  rfl

/-- A rune of four bytes is decoded from its bytes. -/
theorem decode?_four {c : Char} {i j k l : Nat}
    (hc : c.val.toNat = ((i * 64 + j) * 64 + k) * 64 + l)
    (hleast : 0x10000 ≤ ((i * 64 + j) * 64 + k) * 64 + l) (hi : i < 8) (hj : j < 64) (hk : k < 64)
    (hl : l < 64) (rest : Text) :
    decode? (String.utf8EncodeChar c ++ rest) = some (c, rest) := by
  obtain ⟨hlow, hhigh, hlead⟩ := lead_ofNat 0xF0 0xF8 (Nat.add_lt_add_right hi 0xF0)
  have h80 := hlow 0x80 (by decide)
  have hC0 := hlow 0xC0 (by decide)
  have hE0 := hlow 0xE0 (by decide)
  have hF0 := hlow 0xF0 (by decide)
  rw [encode_four hc hleast hi hj hk hl]
  show decode? (UInt8.ofNat (i + UInt8.toNat 0xF0) :: _ :: _ :: _ :: rest) = _
  simp only [decode?, if_neg h80, if_neg hC0, if_neg hE0, if_neg hF0, if_pos hhigh,
    tail?_ofNat hj, tail?_ofNat hk, tail?_ofNat hl]
  show (scalar? 0x10000 (((((UInt8.ofNat (i + UInt8.toNat 0xF0)).toNat - UInt8.toNat 0xF0) * 64 + j)
    * 64 + k) * 64 + l)).bind _ = _
  rw [hlead, scalar?_toNat hleast hc]
  rfl

/-- The encoding of a character is decoded as that character, whatever comes after it. -/
theorem decode?_encode (c : Char) (rest : Text) :
    decode? (String.utf8EncodeChar c ++ rest) = some (c, rest) := by
  have hmax : c.val.toNat < 0x110000 := by
    rcases c.valid with h | h
    · exact Nat.lt_trans h (by decide)
    · exact h.2
  generalize hn : c.val.toNat = n at hmax
  -- the four forms, by the size of the number; its digits to base 64 are the payloads
  by_cases h1 : n < 0x80
  · exact decode?_one hn h1 rest
  by_cases h2 : n < 0x800
  · have hdigits : n = n / 64 * 64 + n % 64 := by omega
    rw [hdigits] at hn
    exact decode?_two hn (by omega) (by omega) (by omega) rest
  by_cases h3 : n < 0x10000
  · have hdigits : n = (n / 4096 * 64 + n / 64 % 64) * 64 + n % 64 := by omega
    rw [hdigits] at hn
    exact decode?_three hn (by omega) (by omega) (by omega) (by omega) rest
  · have hdigits : n = ((n / 262144 * 64 + n / 4096 % 64) * 64 + n / 64 % 64) * 64 + n % 64 := by
      omega
    rw [hdigits] at hn
    exact decode?_four hn (by omega) (by omega) (by omega) (by omega) (by omega) rest

/-- Where nothing is decoded, no character starts. -/
theorem no_char_starts {t : Text} (h : decode? t = none) (c : Char) :
    ¬ String.utf8EncodeChar c <+: t := by
  rintro ⟨rest, rfl⟩
  rw [decode?_encode] at h
  cases h

end Monkey.Text
