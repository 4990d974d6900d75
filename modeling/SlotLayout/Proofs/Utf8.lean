import Mathlib.Algebra.GroupWithZero.Nat
import Mathlib.Tactic.SplitIfs
import SlotLayout.Document.Layout

/-!
# Bytes of texts

A character is read from bytes where its UTF-8 form stands and nowhere else
(`Symbol.decode?_eq_some_iff`): not where a form is longer than need be, or where the code point is
that of a surrogate. So the symbols of bytes are those of a text if and only if the bytes are the
UTF-8 form of the text (`Symbol.ofBytes_eq_ofText_iff`), and a document is the same layout, or
refused for the same reason, as a text and as bytes (`Layout.ofBytes_toUTF8`).
-/

namespace SlotLayout

namespace Json.Symbol

/-! ## Code points -/

/-- The bytes that go on with the code point `n`: `count` of them, six bits in each. -/
def continuation : Nat → Nat → List UInt8
  | 0, _ => []
  | count + 1, n => .ofNat (n / 0x40 ^ count % 0x40 + 0x80) :: continuation count n

theorem ofNat_eq_iff {n : Nat} {b : UInt8} (hn : n < 0x100) : .ofNat n = b ↔ n = b.toNat := by
  rw [← UInt8.toNat_inj, UInt8.toNat_ofNat', Nat.mod_eq_of_lt hn]

/-- Bits and continuation bytes make up a code point if the bits are what is left of it when its
continuation bytes are taken off. -/
theorem continued_eq_some_iff {bits count n : Nat} {bs : List UInt8} :
    continued bits count bs = some n ↔
      n / 0x40 ^ count = bits ∧ continuation count n <+: bs := by
  induction count generalizing bits bs with
  | zero =>
    rw [continued, continuation, Option.some.injEq, Nat.pow_zero, Nat.div_one, eq_comm]
    exact (and_iff_left List.nil_prefix).symm
  | succ count ih =>
    cases bs with
    | nil => simp [continued, continuation]
    | cons b bs =>
      have hbyte : n / 0x40 ^ count % 0x40 + 0x80 < 0x100 := by omega
      rw [continuation, List.cons_prefix_cons, ofNat_eq_iff hbyte, Nat.pow_succ,
        ← Nat.div_div_eq_div_mul]
      by_cases h : 0x80 ≤ b.toNat ∧ b.toNat < 0xc0
      · rw [continued, if_pos h, ih]
        generalize n / 0x40 ^ count = m
        constructor <;> rintro ⟨hm, hbs⟩
        · exact ⟨by omega, by omega, hbs⟩
        · exact ⟨by omega, hbs.2⟩
      · rw [continued, if_neg h]
        constructor
        · nofun
        · rintro ⟨-, hb, -⟩
          omega

theorem isValidChar_toNat (c : Char) : c.toNat.isValidChar := c.valid

theorem toNat_ofNat {n : Nat} (h : n.isValidChar) : (Char.ofNat n).toNat = n := by
  rw [Char.ofNat, dif_pos h]
  rfl

theorem scalar?_eq_some_iff {least n : Nat} {c : Char} :
    scalar? least n = some c ↔ least ≤ n ∧ c.toNat = n := by
  unfold scalar?
  constructor
  · intro h
    split at h
    · rename_i hn
      cases h
      exact ⟨hn.1, toNat_ofNat hn.2⟩
    · cases h
  · rintro ⟨hle, rfl⟩
    rw [if_pos ⟨hle, isValidChar_toNat c⟩, Char.ofNat_toNat]

/-- A first byte with the mark `mark` of a character that has `count` more. -/
theorem bind_scalar?_eq_some_iff {b : UInt8} {bs : List UInt8} {mark least count : Nat} {c : Char} :
    (continued (b.toNat - mark) count bs).bind (scalar? least) = some c ↔
      least ≤ c.toNat ∧ c.toNat / 0x40 ^ count = b.toNat - mark ∧
        continuation count c.toNat <+: bs := by
  simp only [Option.bind_eq_some_iff, continued_eq_some_iff, scalar?_eq_some_iff]
  constructor
  · rintro ⟨n, hn, hle, rfl⟩
    exact ⟨hle, hn⟩
  · rintro ⟨hle, hn⟩
    exact ⟨_, hn, hle, rfl⟩

theorem toNat_lt (c : Char) : c.toNat < 0x110000 := by
  have hvalid := isValidChar_toNat c
  unfold Nat.isValidChar at hvalid
  omega

/-- The UTF-8 form of a character: a first byte with its leading bits and a mark, which says how
many bytes go on with the character. -/
theorem utf8EncodeChar_eq (c : Char) : String.utf8EncodeChar c =
    if c.toNat < 0x80 then [.ofNat c.toNat]
    else if c.toNat < 0x800 then .ofNat (c.toNat / 0x40 ^ 1 + 0xc0) :: continuation 1 c.toNat
    else if c.toNat < 0x10000 then .ofNat (c.toNat / 0x40 ^ 2 + 0xe0) :: continuation 2 c.toNat
    else .ofNat (c.toNat / 0x40 ^ 3 + 0xf0) :: continuation 3 c.toNat := by
  have hlt := toNat_lt c
  have hval : c.val.toNat = c.toNat := rfl
  simp only [String.utf8EncodeChar, hval, continuation, Nat.reducePow, Nat.div_one]
  generalize c.toNat = n at hlt
  rcases (by omega : n < 0x80 ∨ 0x80 ≤ n ∧ n < 0x800 ∨ 0x800 ≤ n ∧ n < 0x10000 ∨ 0x10000 ≤ n) with
    h | h | h | h
  · rw [if_pos (by omega), if_pos h]
  · rw [if_neg (by omega), if_pos (by omega), if_neg (by omega), if_pos (by omega),
      Nat.mod_eq_of_lt (by omega)]
  · rw [if_neg (by omega), if_neg (by omega), if_pos (by omega), if_neg (by omega),
      if_neg (by omega), if_pos (by omega), Nat.mod_eq_of_lt (by omega)]
  · rw [if_neg (by omega), if_neg (by omega), if_neg (by omega), if_neg (by omega),
      if_neg (by omega), if_neg (by omega), Nat.mod_eq_of_lt (by omega)]

variable {b : UInt8} {bs : List UInt8} {c : Char}

theorem utf8EncodeChar_prefix_of_decode? (h : decode? b bs = some c) :
    String.utf8EncodeChar c <+: b :: bs := by
  have hlt : b.toNat < 0x100 := b.toNat_lt
  unfold decode? at h
  dsimp only at h
  rw [utf8EncodeChar_eq]
  split_ifs at h with h1 h2 h3 h4 h5
  · obtain ⟨-, hc⟩ := scalar?_eq_some_iff.1 h
    rw [if_pos (by omega), List.cons_prefix_cons, ofNat_eq_iff (by omega)]
    exact ⟨hc, List.nil_prefix⟩
  · obtain ⟨hle, hc, hbs⟩ := bind_scalar?_eq_some_iff.1 h
    rw [if_neg (by omega), if_pos (by omega), List.cons_prefix_cons, ofNat_eq_iff (by omega)]
    exact ⟨by omega, hbs⟩
  · obtain ⟨hle, hc, hbs⟩ := bind_scalar?_eq_some_iff.1 h
    rw [if_neg (by omega), if_neg (by omega), if_pos (by omega), List.cons_prefix_cons,
      ofNat_eq_iff (by omega)]
    exact ⟨by omega, hbs⟩
  · obtain ⟨hle, hc, hbs⟩ := bind_scalar?_eq_some_iff.1 h
    rw [if_neg (by omega), if_neg (by omega), if_neg (by omega), List.cons_prefix_cons,
      ofNat_eq_iff (by omega)]
    exact ⟨by omega, hbs⟩

theorem decode?_of_utf8EncodeChar_prefix (h : String.utf8EncodeChar c <+: b :: bs) :
    decode? b bs = some c := by
  have hlt := toNat_lt c
  rw [utf8EncodeChar_eq] at h
  unfold decode?
  dsimp only
  split_ifs at h with h1 h2 h3 <;>
    rw [List.cons_prefix_cons, ofNat_eq_iff (by omega)] at h
  · rw [if_pos (by omega)]
    exact scalar?_eq_some_iff.2 ⟨Nat.zero_le _, h.1⟩
  · rw [if_neg (by omega), if_neg (by omega), if_pos (by omega)]
    exact bind_scalar?_eq_some_iff.2 ⟨by omega, by omega, h.2⟩
  · rw [if_neg (by omega), if_neg (by omega), if_neg (by omega), if_pos (by omega)]
    exact bind_scalar?_eq_some_iff.2 ⟨by omega, by omega, h.2⟩
  · rw [if_neg (by omega), if_neg (by omega), if_neg (by omega), if_neg (by omega),
      if_pos (by omega)]
    exact bind_scalar?_eq_some_iff.2 ⟨by omega, by omega, h.2⟩

/-- A character is read from bytes if they begin with its UTF-8 form, and only then. -/
theorem decode?_eq_some_iff : decode? b bs = some c ↔ String.utf8EncodeChar c <+: b :: bs :=
  ⟨utf8EncodeChar_prefix_of_decode?, decode?_of_utf8EncodeChar_prefix⟩

/-! ## Sequences of bytes -/

theorem ofBytesAfter_eq (skip : Nat) (bytes : List UInt8) :
    ofBytesAfter skip bytes = ofBytes (bytes.drop skip) := by
  induction bytes generalizing skip with
  | nil => simp [ofBytes, ofBytesAfter]
  | cons b bs ih =>
    cases skip with
    | zero => rfl
    | succ skip => exact ih skip

theorem ofBytes_of_decode? (h : decode? b bs = some c) :
    ofBytes (b :: bs) = .char c :: ofBytes (bs.drop (c.utf8Size - 1)) := by
  rw [← ofBytesAfter_eq, ofBytes, ofBytesAfter, h]

theorem ofBytes_of_not_decode? (h : decode? b bs = none) :
    ofBytes (b :: bs) = .stray b :: ofBytes bs := by
  rw [ofBytes, ofBytesAfter, h]
  rfl

/-- The first character is read wherever bytes begin with one, and reading goes on behind it. -/
theorem ofBytes_utf8EncodeChar (c : Char) (rest : List UInt8) :
    ofBytes (String.utf8EncodeChar c ++ rest) = .char c :: ofBytes rest := by
  obtain ⟨b, bs, hc⟩ := List.exists_cons_of_ne_nil (String.utf8EncodeChar_ne_nil (c := c))
  have hlength : bs.length = c.utf8Size - 1 := by
    rw [← String.length_utf8EncodeChar, hc]
    rfl
  have hdecode : decode? b (bs ++ rest) = some c :=
    decode?_eq_some_iff.2 (hc ▸ List.prefix_append (String.utf8EncodeChar c) rest)
  rw [hc, List.cons_append, ofBytes_of_decode? hdecode, ← hlength, List.drop_left]

/-- The bytes are read as these characters, and as nothing else, if they are the UTF-8 forms of the
characters, and only then. -/
theorem ofBytes_eq_map_iff {bytes : List UInt8} {cs : List Char} :
    ofBytes bytes = cs.map .char ↔ bytes = cs.flatMap String.utf8EncodeChar := by
  constructor
  · intro h
    induction cs generalizing bytes with
    | nil =>
      cases bytes with
      | nil => rfl
      | cons b bs =>
        cases hd : decode? b bs with
        | none =>
          rw [ofBytes_of_not_decode? hd] at h
          cases h
        | some c =>
          rw [ofBytes_of_decode? hd] at h
          cases h
    | cons c cs ih =>
      cases bytes with
      | nil => cases h
      | cons b bs =>
        cases hd : decode? b bs with
        | none =>
          rw [ofBytes_of_not_decode? hd] at h
          cases h
        | some d =>
          obtain ⟨rest, hrest⟩ := decode?_eq_some_iff.1 hd
          rw [← hrest, ofBytes_utf8EncodeChar, List.map_cons, List.cons.injEq] at h
          cases h.1
          rw [← hrest, ih h.2, List.flatMap_cons]
  · rintro rfl
    induction cs with
    | nil => rfl
    | cons c cs ih => rw [List.flatMap_cons, ofBytes_utf8EncodeChar, ih, List.map_cons]

theorem toList_toUTF8 (s : String) :
    s.toUTF8.data.toList = s.toList.flatMap String.utf8EncodeChar := by
  rw [String.toUTF8_eq_toByteArray, ← String.utf8Encode_toList, List.utf8Encode,
    List.toList_data_toByteArray]

/-- Bytes have the symbols of a text if they are its UTF-8 form, and only then. -/
theorem ofBytes_eq_ofText_iff {bytes : List UInt8} {s : String} :
    ofBytes bytes = ofText s ↔ bytes = s.toUTF8.data.toList := by
  rw [ofText, ofBytes_eq_map_iff, toList_toUTF8]

/-- A surrogate has no character. -/
example : ofBytes [0xf0, 0x9d, 0x84, 0x9e, 0xed, 0xa0, 0x80] =
    [.char '𝄞', .stray 0xed, .stray 0xa0, .stray 0x80] := by
  decide

end Json.Symbol

/-- A document is read from its bytes as it is read from its text. -/
theorem Layout.ofBytes_toUTF8 (s : String) : ofBytes s.toUTF8.data.toList = ofText s := by
  rw [ofBytes, ofText, Json.Symbol.ofBytes_eq_ofText_iff.2 rfl]

end SlotLayout
