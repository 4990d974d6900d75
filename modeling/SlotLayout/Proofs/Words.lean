import SlotLayout.Proofs.Numerals
import SlotLayout.Word

/-!
# Texts of words

Which words texts name, and why other texts name none (`Word.ofText_exact`). A text that begins with
`0x` is read in radix sixteen behind it, any other in radix ten. Both written forms of a word name
it (`Word.ofText_hex`, `Word.ofText_decimal`).
-/

namespace SlotLayout.Word

/-- The radix that a text is read in, and what of it is read: what follows `0x`, or all. -/
inductive RadixOf : List Char → Nat → List Char → Prop
  | hex (cs : List Char) : RadixOf ('0' :: 'x' :: cs) 16 cs
  | decimal {cs : List Char} (h : ¬ ['0', 'x'] <+: cs) : RadixOf cs 10 cs

theorem exists_radixOf (cs : List Char) : ∃ radix text, RadixOf cs radix text := by
  by_cases h : ['0', 'x'] <+: cs
  · obtain ⟨rest, rfl⟩ := h
    exact ⟨16, rest, .hex rest⟩
  · exact ⟨10, cs, .decimal h⟩

theorem RadixOf.le {cs text : List Char} {radix : Nat} (h : RadixOf cs radix text) :
    radix ≤ 16 := by
  cases h <;> decide

theorem wordCount_eq : wordCount = 16 ^ 64 := by norm_num [wordCount]

theorem wordCount_pos : 0 < wordCount := by decide

theorem ofDigits_eq_ok_iff {radix : Nat} (hr : radix ≤ 16) {cs : List Char} {w : Word} :
    ofDigits radix cs = .ok w ↔ Numeral.read radix wordCount cs = .ok w.val := by
  rw [ofDigits]
  cases h : Numeral.read radix wordCount cs with
  | error e => simp
  | ok n =>
    obtain ⟨_, _, _, _, _, _, hlt⟩ := (Numeral.read_eq_ok_iff hr wordCount_pos).1 h
    simp [ofNat?, hlt, Word.ext_iff]

theorem ofDigits_eq_error_iff {radix : Nat} (hr : radix ≤ 16) {cs : List Char} {e : Numeral.Error} :
    ofDigits radix cs = .error e ↔ Numeral.read radix wordCount cs = .error e := by
  rw [ofDigits]
  cases h : Numeral.read radix wordCount cs with
  | error e => simp
  | ok n =>
    obtain ⟨_, _, _, _, _, _, hlt⟩ := (Numeral.read_eq_ok_iff hr wordCount_pos).1 h
    simp [ofNat?, hlt]

theorem RadixOf.ofChars_eq {cs text : List Char} {radix : Nat} (h : RadixOf cs radix text) :
    ofChars cs = ofDigits radix text := by
  cases h with
  | hex => rfl
  | decimal h =>
    unfold ofChars
    split
    · exact absurd (List.prefix_append ['0', 'x'] _) h
    · rfl

theorem ofText_eq_error_iff {s : String} {e : Numeral.Error} (he : e ≠ .empty) :
    ofText s = .error e ↔ ∃ radix text c n, RadixOf s.toList radix text ∧
      Numeral.ComesTo radix wordCount text c n ∧ Numeral.Stops radix wordCount n c e := by
  constructor
  · intro h
    obtain ⟨radix, text, hradix⟩ := exists_radixOf s.toList
    rw [ofText, hradix.ofChars_eq, ofDigits_eq_error_iff hradix.le,
      Numeral.read_eq_error_iff hradix.le wordCount_pos he] at h
    obtain ⟨c, n, hcomes, hstops⟩ := h
    exact ⟨radix, text, c, n, hradix, hcomes, hstops⟩
  · rintro ⟨radix, text, c, n, hradix, hcomes, hstops⟩
    rw [ofText, hradix.ofChars_eq, ofDigits_eq_error_iff hradix.le,
      Numeral.read_eq_error_iff hradix.le wordCount_pos he]
    exact ⟨c, n, hcomes, hstops⟩

theorem ofText_eq_empty_iff {s : String} : ofText s = .error .empty ↔ s = "" ∨ s = "0x" := by
  obtain ⟨radix, text, hradix⟩ := exists_radixOf s.toList
  rw [ofText, hradix.ofChars_eq, ofDigits_eq_error_iff hradix.le,
    Numeral.read_eq_empty_iff hradix.le wordCount_pos, ← String.toList_inj, ← String.toList_inj]
  generalize s.toList = cs at hradix ⊢
  cases hradix with
  | hex => simp
  | decimal h =>
    refine ⟨.inl, fun hcs => hcs.resolve_right ?_⟩
    rintro rfl
    exact h List.prefix_rfl

theorem ofText_eq_ok_iff {s : String} {w : Word} : ofText s = .ok w ↔
    ∃ mark radix sign digits, (mark = ['0', 'x'] ∧ radix = 16 ∨ mark = [] ∧ radix = 10) ∧
      (sign = [] ∨ sign = ['+']) ∧ digits ≠ [] ∧ s.toList = mark ++ (sign ++ digits) ∧
      Numeral.Names radix digits w.val := by
  rw [ofText]
  constructor
  · intro h
    obtain ⟨radix, text, hradix⟩ := exists_radixOf s.toList
    rw [hradix.ofChars_eq, ofDigits_eq_ok_iff hradix.le,
      Numeral.read_eq_ok_iff hradix.le wordCount_pos] at h
    obtain ⟨sign, digits, hsign, hne, rfl, hn, -⟩ := h
    generalize s.toList = cs at hradix ⊢
    cases hradix with
    | hex => exact ⟨_, 16, sign, digits, .inl ⟨rfl, rfl⟩, hsign, hne, rfl, hn⟩
    | decimal => exact ⟨_, 10, sign, digits, .inr ⟨rfl, rfl⟩, hsign, hne, rfl, hn⟩
  · rintro ⟨mark, radix, sign, digits, hmark, hsign, hne, hs, hn⟩
    have hradix : RadixOf s.toList radix (sign ++ digits) := by
      rw [hs]
      rcases hmark with ⟨rfl, rfl⟩ | ⟨rfl, rfl⟩
      · exact .hex _
      · refine .decimal fun hprefix => ?_
        have hx : 'x' ∈ sign ++ digits := hprefix.subset (by simp)
        rcases List.mem_append.1 hx with hx | hx
        · rcases hsign with rfl | rfl <;> simp at hx
        · obtain ⟨d, hd⟩ := hn.digits _ hx
          exact Numeral.not_digitOf (by decide) rfl hd
    rw [hradix.ofChars_eq, ofDigits_eq_ok_iff hradix.le,
      Numeral.read_eq_ok_iff hradix.le wordCount_pos]
    exact ⟨sign, digits, hsign, hne, rfl, hn, w.isLt⟩

/-! ## Written words -/

/-- The hexadecimal form of a word has 64 digits of it behind `0x`, with letters in lower case. -/
theorem hex_exact (w : Word) : ∃ digits, w.hex.toList = '0' :: 'x' :: digits ∧
    digits.length = 64 ∧ (∀ c ∈ digits, ∃ d < 16, c = Nat.digitChar d) ∧
    Numeral.Names 16 digits w.val := by
  have hlt : w.val < 16 ^ 64 := wordCount_eq ▸ w.isLt
  exact ⟨Numeral.padded 16 64 w.val, String.toList_ofList, Numeral.length_padded 16 64 w.val,
    Numeral.mem_padded (by decide) (by decide), Numeral.names_padded (by decide) (by decide) hlt⟩

theorem ofText_hex (w : Word) : ofText w.hex = .ok w := by
  obtain ⟨digits, hhex, hlength, -, hn⟩ := w.hex_exact
  refine ofText_eq_ok_iff.2 ⟨_, 16, [], digits, .inl ⟨rfl, rfl⟩, .inl rfl, ?_, hhex, hn⟩
  rintro rfl
  cases hlength

theorem ofText_decimal (w : Word) : ofText w.decimal = .ok w := by
  refine ofText_eq_ok_iff.2 ⟨[], 10, [], Nat.toDigits 10 w.val, .inr ⟨rfl, rfl⟩, .inl rfl,
    Nat.toDigits_ne_nil, ?_, Numeral.names_toDigits w.val⟩
  rw [decimal, Nat.toString_eq_ofList_toDigits, String.toList_ofList]
  rfl

/-- A text names a word exactly if it has digits of it, with a plus sign before them or not, and
these are hexadecimal behind `0x` and decimal otherwise. For any other text the error is that there
is nothing to read, or what is wrong with the first character that cannot follow the digits before
it. The two forms in which a word is written name it again. -/
theorem ofText_exact (s : String) :
    (∀ w, ofText s = .ok w ↔
      ∃ mark radix sign digits, (mark = ['0', 'x'] ∧ radix = 16 ∨ mark = [] ∧ radix = 10) ∧
        (sign = [] ∨ sign = ['+']) ∧ digits ≠ [] ∧ s.toList = mark ++ (sign ++ digits) ∧
        Numeral.Names radix digits w.val) ∧
      (ofText s = .error .empty ↔ s = "" ∨ s = "0x") ∧
      (ofText s = .error .invalidDigit ↔ ∃ radix text c n, RadixOf s.toList radix text ∧
        Numeral.ComesTo radix wordCount text c n ∧ ∀ d, ¬ Numeral.DigitOf radix c d) ∧
      (ofText s = .error .tooLarge ↔ ∃ radix text c n, RadixOf s.toList radix text ∧
        Numeral.ComesTo radix wordCount text c n ∧
        ∃ d, Numeral.DigitOf radix c d ∧ wordCount ≤ n * radix + d) ∧
      ∀ w : Word, ofText w.hex = .ok w ∧ ofText w.decimal = .ok w ∧
        ∃ digits, w.hex.toList = '0' :: 'x' :: digits ∧ digits.length = 64 ∧
          (∀ c ∈ digits, ∃ d < 16, c = Nat.digitChar d) ∧ Numeral.Names 16 digits w.val :=
  ⟨fun _ => ofText_eq_ok_iff, ofText_eq_empty_iff, ofText_eq_error_iff (by decide),
    ofText_eq_error_iff (by decide), fun w => ⟨w.ofText_hex, w.ofText_decimal, w.hex_exact⟩⟩

end SlotLayout.Word
