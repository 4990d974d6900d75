import Mathlib.Data.List.Forall2
import Mathlib.Data.List.Induction
import Mathlib.Data.Nat.Digits.Defs
import SlotLayout.Numeral
import SlotLayout.Proofs.Results
import SlotLayout.Text.Blank

/-!
# Numerals

Digits name a number by their values (`Numeral.Names`). Reading goes from digit to digit and stops
at the first character that is no digit or takes the number to the bound; of the two, the first one
met is the error (`Numeral.read_eq_error_iff`), and what is read without one is the number that the
digits name (`Numeral.read_eq_ok_iff`). What is read behind a number depends on this number only
(`Numeral.readOnto_append`), so texts are looked at from their ends: the last digit adds to what
those before it name (`Numeral.names_concat_iff`).

Decimal digits, whatever zeros they begin with and with or without a plus sign before them, are read
as their number (`Numeral.read_digits`), and blanks around them can be taken off
(`Numeral.trim_digits`). Nothing but a zero by itself begins with the digit zero in writing
(`Numeral.eq_singleton_of_toDigits`).
-/

namespace SlotLayout.Numeral

/-! ## Digits -/

/-- The character is the digit of the value; a letter counts in either case. -/
def DigitOf (radix : Nat) (c : Char) (d : Nat) : Prop :=
  d < radix ∧ (c = Nat.digitChar d ∨ c = (Nat.digitChar d).toUpper)

/-- The digits name the number; the last of them counts least. -/
def Names (radix : Nat) (cs : List Char) (n : Nat) : Prop :=
  ∃ ds, List.Forall₂ (DigitOf radix) cs.reverse ds ∧ n = Nat.ofDigits radix ds

theorem toNat_digit : ∀ d < 16, (Nat.digitChar d).toNat = (if d < 10 then 48 else 87) + d ∧
    (Nat.digitChar d).toUpper.toNat = (if d < 10 then 48 else 55) + d := by
  decide

theorem digitValue?_digit : ∀ d < 16, digitValue? (Nat.digitChar d) = some d ∧
    digitValue? (Nat.digitChar d).toUpper = some d := by
  decide

theorem digitOf_of_digitValue? {c : Char} {d : Nat} (h : digitValue? c = some d) :
    DigitOf 16 c d := by
  have h0 : '0'.toNat = 48 ∧ '9'.toNat = 57 := ⟨rfl, rfl⟩
  have ha : 'a'.toNat = 97 ∧ 'f'.toNat = 102 ∧ 'A'.toNat = 65 ∧ 'F'.toNat = 70 :=
    ⟨rfl, rfl, rfl, rfl⟩
  have hle : ∀ a b : Char, a ≤ b → a.toNat ≤ b.toNat := fun _ _ h => h
  have hcode : d < 16 ∧ (c.toNat = (if d < 10 then 48 else 87) + d ∨
      c.toNat = (if d < 10 then 48 else 55) + d) := by
    rw [digitValue?] at h
    split_ifs at h with hdec hlower hupper
    · have := hle _ _ hdec.1
      have := hle _ _ hdec.2
      cases h
      split <;> omega
    · have := hle _ _ hlower.1
      have := hle _ _ hlower.2
      cases h
      split <;> omega
    · have := hle _ _ hupper.1
      have := hle _ _ hupper.2
      cases h
      split <;> omega
  obtain ⟨hd, hc⟩ := hcode
  refine ⟨hd, hc.imp (fun hc => ?_) fun hc => ?_⟩
  · exact Char.toNat_inj.1 (hc.trans (toNat_digit d hd).1.symm)
  · exact Char.toNat_inj.1 (hc.trans (toNat_digit d hd).2.symm)

theorem digit?_eq_some_iff {radix : Nat} (hr : radix ≤ 16) {c : Char} {d : Nat} :
    digit? radix c = some d ↔ DigitOf radix c d := by
  rw [digit?, Option.filter_eq_some_iff, decide_eq_true_eq]
  constructor
  · rintro ⟨h, hd⟩
    exact ⟨hd, (digitOf_of_digitValue? h).2⟩
  · rintro ⟨hd, h⟩
    obtain ⟨hlower, hupper⟩ := digitValue?_digit d (Nat.lt_of_lt_of_le hd hr)
    refine ⟨?_, hd⟩
    rcases h with rfl | rfl
    · exact hlower
    · exact hupper

theorem not_digitOf {radix : Nat} (hr : radix ≤ 16) {c : Char} (h : digitValue? c = none)
    {d : Nat} : ¬ DigitOf radix c d := by
  rw [← digit?_eq_some_iff hr, digit?, h]
  exact nofun

theorem names_nil_iff {radix n : Nat} : Names radix [] n ↔ n = 0 := by
  constructor
  · rintro ⟨ds, hds, rfl⟩
    cases hds
    rfl
  · rintro rfl
    exact ⟨[], .nil, rfl⟩

/-- The last digit is added to what the others name, times the radix. -/
theorem names_concat_iff {radix n : Nat} {cs : List Char} {c : Char} :
    Names radix (cs ++ [c]) n ↔
      ∃ m d, Names radix cs m ∧ DigitOf radix c d ∧ n = m * radix + d := by
  rw [Names, List.reverse_concat]
  constructor
  · rintro ⟨_, hall, rfl⟩
    obtain ⟨d, ds, hd, hds, rfl⟩ := List.forall₂_cons_left_iff.1 hall
    exact ⟨_, d, ⟨ds, hds, rfl⟩, hd, by rw [Nat.ofDigits_cons]; ring⟩
  · rintro ⟨m, d, ⟨ds, hds, rfl⟩, hd, rfl⟩
    exact ⟨d :: ds, .cons hd hds, by rw [Nat.ofDigits_cons]; ring⟩

theorem Names.digits {radix n : Nat} {cs : List Char} (h : Names radix cs n) :
    ∀ c ∈ cs, ∃ d, DigitOf radix c d := by
  obtain ⟨ds, hds, -⟩ := h
  intro c hc
  obtain ⟨d, -, hd⟩ := exists_of_forall₂ hds (List.mem_reverse.2 hc)
  exact ⟨d, hd⟩

/-! ## Reading -/

section

variable {radix bound : Nat} {cs : List Char} {c : Char} {n : Nat} {e : Error}

/-- What is read behind a number depends on the number only. -/
theorem readOnto_append (radix bound acc : Nat) (cs cs' : List Char) :
    readOnto radix bound acc (cs ++ cs') =
      readOnto radix bound acc cs >>= fun n => readOnto radix bound n cs' := by
  induction cs generalizing acc with
  | nil => rfl
  | cons c cs ih =>
    rw [List.cons_append, readOnto, readOnto]
    split
    · rfl
    · split
      · exact ih _
      · rfl

/-- The character cannot follow the digits of the number `n`, for this reason. -/
def Stops (radix bound n : Nat) (c : Char) : Error → Prop
  | .empty => False
  | .invalidDigit => ∀ d, ¬ DigitOf radix c d
  | .tooLarge => ∃ d, DigitOf radix c d ∧ bound ≤ n * radix + d

theorem readOnto_singleton_eq_ok_iff (hr : radix ≤ 16) {m : Nat} :
    readOnto radix bound n [c] = .ok m ↔
      ∃ d, DigitOf radix c d ∧ m = n * radix + d ∧ m < bound := by
  simp only [← digit?_eq_some_iff hr, readOnto]
  cases digit? radix c with
  | none => simp
  | some d =>
    by_cases hlt : n * radix + d < bound
    · simp only [hlt, ↓reduceIte, Except.ok.injEq, Option.some.injEq, exists_eq_left']
      omega
    · simp only [hlt, ↓reduceIte, Option.some.injEq, exists_eq_left', reduceCtorEq, false_iff]
      omega

theorem readOnto_singleton_eq_error_iff (hr : radix ≤ 16) :
    readOnto radix bound n [c] = .error e ↔ Stops radix bound n c e := by
  have hstops : Stops radix bound n c e ↔ (digit? radix c = none ∧ e = .invalidDigit) ∨
      ∃ d, digit? radix c = some d ∧ bound ≤ n * radix + d ∧ e = .tooLarge := by
    cases e <;> simp [Stops, ← digit?_eq_some_iff hr, Option.eq_none_iff_forall_ne_some]
  rw [hstops, readOnto]
  cases digit? radix c with
  | none => simp [eq_comm]
  | some d =>
    by_cases hlt : n * radix + d < bound
    · simp [hlt, readOnto]
    · simp [hlt, Nat.le_of_not_lt hlt, eq_comm]

/-- A text is read as a number if and only if its characters are digits that name the number. -/
theorem readOnto_eq_ok_iff (hr : radix ≤ 16) (hb : 0 < bound) :
    readOnto radix bound 0 cs = .ok n ↔ Names radix cs n ∧ n < bound := by
  induction cs using List.reverseRecOn generalizing n with
  | nil =>
    rw [readOnto, names_nil_iff, Except.ok.injEq, eq_comm]
    exact ⟨fun h => ⟨h, h ▸ hb⟩, And.left⟩
  | append_singleton cs c ih =>
    simp only [readOnto_append, bind_eq_ok_iff, ih, readOnto_singleton_eq_ok_iff hr,
      names_concat_iff]
    constructor
    · rintro ⟨m, ⟨hm, -⟩, d, hd, rfl, hn⟩
      exact ⟨⟨m, d, hm, hd, rfl⟩, hn⟩
    · rintro ⟨⟨m, d, hm, hd, rfl⟩, hn⟩
      have hle : m ≤ m * radix := Nat.le_mul_of_pos_right m (Nat.zero_lt_of_lt hd.1)
      exact ⟨m, ⟨hm, by omega⟩, d, hd, rfl, hn⟩

/-- Digits name one number only. -/
theorem Names.unique (hr : radix ≤ 16) {m : Nat} (hm : Names radix cs m) (hn : Names radix cs n) :
    m = n := by
  have hb : 0 < m + n + 1 := Nat.succ_pos _
  have hm := (readOnto_eq_ok_iff hr hb).2 ⟨hm, by omega⟩
  have hn := (readOnto_eq_ok_iff hr hb).2 ⟨hn, by omega⟩
  exact Except.ok.inj (hm.symm.trans hn)

/-- Reading a text fails at the first character that cannot follow the digits before it. -/
theorem readOnto_eq_error_iff (hr : radix ≤ 16) (hb : 0 < bound) :
    readOnto radix bound 0 cs = .error e ↔ ∃ front c back n, cs = front ++ c :: back ∧
      Names radix front n ∧ n < bound ∧ Stops radix bound n c e := by
  constructor
  · intro h
    induction cs using List.reverseRecOn with
    | nil => cases h
    | append_singleton cs c ih =>
      rw [readOnto_append, bind_eq_error_iff] at h
      rcases h with h | ⟨n, hn, hc⟩
      · obtain ⟨front, c', back, n, rfl, hfront⟩ := ih h
        exact ⟨front, c', back ++ [c], n, by simp, hfront⟩
      · obtain ⟨hn, hlt⟩ := (readOnto_eq_ok_iff hr hb).1 hn
        exact ⟨cs, c, [], n, rfl, hn, hlt, (readOnto_singleton_eq_error_iff hr).1 hc⟩
  · rintro ⟨front, c, back, n, rfl, hn, hlt, hc⟩
    have hcons : readOnto radix bound n ([c] ++ back) = .error e := by
      rw [readOnto_append, (readOnto_singleton_eq_error_iff hr).2 hc]
      rfl
    rw [readOnto_append, (readOnto_eq_ok_iff hr hb).2 ⟨hn, hlt⟩]
    exact hcons

end

/-! ## Signs -/

/-- What follows the sign of a text. A plus sign is one if anything follows it. -/
inductive Unsigned : List Char → List Char → Prop
  | plus {cs : List Char} (h : cs ≠ []) : Unsigned ('+' :: cs) cs
  | bare {cs : List Char} (h : cs.head? = some '+' → cs = ['+']) : Unsigned cs cs

theorem exists_unsigned (cs : List Char) (h : cs ≠ []) : ∃ text, Unsigned cs text ∧ text ≠ [] := by
  by_cases hplus : ∃ c rest, cs = '+' :: c :: rest
  · obtain ⟨c, rest, rfl⟩ := hplus
    exact ⟨c :: rest, .plus (List.cons_ne_nil c rest), List.cons_ne_nil c rest⟩
  · refine ⟨cs, .bare fun hhead => ?_, h⟩
    obtain ⟨rest, rfl⟩ := List.head?_eq_some_iff.1 hhead
    cases rest with
    | nil => rfl
    | cons c rest => exact absurd ⟨c, rest, rfl⟩ hplus

theorem Unsigned.read_eq {cs text : List Char} (h : Unsigned cs text) (hne : text ≠ [])
    (radix bound : Nat) : read radix bound cs = readOnto radix bound 0 text := by
  obtain ⟨c, rest, rfl⟩ := List.exists_cons_of_ne_nil hne
  cases h with
  | plus => rfl
  | bare h =>
    unfold read
    split
    · exact absurd ‹_› (List.cons_ne_nil c rest)
    · rename_i heq
      cases heq
      cases h rfl
    · rfl

section

variable {radix bound : Nat} {cs : List Char} {n : Nat} {e : Error}

/-- A text names a number below the bound if it has digits for it, with a plus sign or without. -/
theorem read_eq_ok_iff (hr : radix ≤ 16) (hb : 0 < bound) : read radix bound cs = .ok n ↔
    ∃ sign digits, (sign = [] ∨ sign = ['+']) ∧ digits ≠ [] ∧ cs = sign ++ digits ∧
      Names radix digits n ∧ n < bound := by
  constructor
  · intro h
    by_cases hne : cs = []
    · rw [hne] at h
      cases h
    · obtain ⟨text, hsign, htext⟩ := exists_unsigned cs hne
      rw [hsign.read_eq htext, readOnto_eq_ok_iff hr hb] at h
      cases hsign with
      | plus => exact ⟨['+'], text, .inr rfl, htext, rfl, h⟩
      | bare => exact ⟨[], cs, .inl rfl, htext, rfl, h⟩
  · rintro ⟨sign, digits, hsign, hne, rfl, h⟩
    have hunsigned : Unsigned (sign ++ digits) digits := by
      rcases hsign with rfl | rfl
      · refine .bare fun hhead => ?_
        obtain ⟨d, hd⟩ := h.1.digits '+' (List.mem_of_mem_head? hhead)
        exact absurd hd (not_digitOf hr rfl)
      · exact .plus hne
    rw [hunsigned.read_eq hne, readOnto_eq_ok_iff hr hb]
    exact h

theorem read_eq_empty_iff (hr : radix ≤ 16) (hb : 0 < bound) :
    read radix bound cs = .error .empty ↔ cs = [] := by
  constructor
  · intro h
    by_contra hne
    obtain ⟨text, hsign, htext⟩ := exists_unsigned cs hne
    rw [hsign.read_eq htext, readOnto_eq_error_iff hr hb] at h
    obtain ⟨_, _, _, _, _, _, _, hstops⟩ := h
    exact hstops
  · rintro rfl
    rfl

/-- Reading a text without its sign comes to the character `c` behind digits of the number `n`. -/
def ComesTo (radix bound : Nat) (cs : List Char) (c : Char) (n : Nat) : Prop :=
  ∃ front back, Unsigned cs (front ++ c :: back) ∧ Names radix front n ∧ n < bound

theorem read_eq_error_iff (hr : radix ≤ 16) (hb : 0 < bound) (he : e ≠ .empty) :
    read radix bound cs = .error e ↔
      ∃ c n, ComesTo radix bound cs c n ∧ Stops radix bound n c e := by
  constructor
  · intro h
    by_cases hne : cs = []
    · rw [hne] at h
      cases h
      exact absurd rfl he
    · obtain ⟨text, hsign, htext⟩ := exists_unsigned cs hne
      rw [hsign.read_eq htext, readOnto_eq_error_iff hr hb] at h
      obtain ⟨front, c, back, n, rfl, hn, hlt, hstops⟩ := h
      exact ⟨c, n, ⟨front, back, hsign, hn, hlt⟩, hstops⟩
  · rintro ⟨c, n, ⟨front, back, hsign, hn, hlt⟩, hstops⟩
    rw [hsign.read_eq (List.append_ne_nil_of_right_ne_nil _ (List.cons_ne_nil c back)),
      readOnto_eq_error_iff hr hb]
    exact ⟨front, c, back, n, rfl, hn, hlt, hstops⟩

end

/-! ## Written numbers -/

theorem digitChar_eq : ∀ d < 16, digitChar d = Nat.digitChar d := by
  decide

theorem digitValue?_digitChar {d : Nat} (hd : d < 16) : digitValue? (digitChar d) = some d := by
  rw [digitChar_eq d hd, (digitValue?_digit d hd).1]

theorem names_padded {radix width n : Nat} (hr : 0 < radix) (hr' : radix ≤ 16)
    (h : n < radix ^ width) : Names radix (padded radix width n) n := by
  induction width generalizing n with
  | zero => exact names_nil_iff.2 (Nat.lt_one_iff.1 h)
  | succ width ih =>
    have hmod : n % radix < radix := Nat.mod_lt n hr
    have hdiv : n / radix < radix ^ width := Nat.div_lt_of_lt_mul (by rwa [Nat.pow_succ'] at h)
    refine names_concat_iff.2 ⟨n / radix, n % radix, ih hdiv, ⟨hmod, .inl ?_⟩, ?_⟩
    · exact digitChar_eq _ (Nat.lt_of_lt_of_le hmod hr')
    · exact (Nat.div_add_mod' n radix).symm

theorem mem_padded {radix width n : Nat} (hr : 0 < radix) (hr' : radix ≤ 16) :
    ∀ c ∈ padded radix width n, ∃ d < radix, c = Nat.digitChar d := by
  induction width generalizing n with
  | zero => exact nofun
  | succ width ih =>
    have hmod : n % radix < radix := Nat.mod_lt n hr
    refine List.forall_mem_append.2 ⟨ih, List.forall_mem_singleton.2 ⟨n % radix, hmod, ?_⟩⟩
    exact digitChar_eq _ (Nat.lt_of_lt_of_le hmod hr')

/-! ## Decimal digits -/

theorem isDigit_eq (c : Char) : isDigit c = c.isDigit := by
  simp only [isDigit, Char.isDigit, Char.le_def, ge_iff_le]

/-- Decimal digits, at least one. -/
def Digits (cs : List Char) : Prop := cs ≠ [] ∧ ∀ c ∈ cs, c.isDigit = true

/-- The value of a decimal digit. -/
theorem digit?_of_isDigit {c : Char} (h : c.isDigit = true) :
    digit? 10 c = some (c.toNat - '0'.toNat) := by
  have hrange : '0' ≤ c ∧ c ≤ '9' := by
    rw [← isDigit_eq, isDigit, Bool.and_eq_true, decide_eq_true_eq, decide_eq_true_eq] at h
    exact h
  have hle : c.toNat ≤ '9'.toNat := hrange.2
  have hlt : c.toNat - '0'.toNat < 10 := by
    have h9 : '9'.toNat = '0'.toNat + 9 := rfl
    omega
  rw [digit?, digitValue?, if_pos hrange, Option.filter_some, if_pos (decide_eq_true hlt)]

theorem le_ofDigitChars (cs : List Char) (acc : Nat) : acc ≤ Nat.ofDigitChars 10 cs acc := by
  induction cs generalizing acc with
  | nil => exact Nat.le_of_eq Nat.ofDigitChars_nil.symm
  | cons c cs ih =>
    rw [Nat.ofDigitChars_cons]
    have := ih (10 * acc + (c.toNat - '0'.toNat))
    omega

/-- Decimal digits name the number that they are computed to. -/
theorem names_of_digits {cs : List Char} (h : ∀ c ∈ cs, c.isDigit = true) :
    Names 10 cs (Nat.ofDigitChars 10 cs 0) := by
  induction cs using List.reverseRecOn with
  | nil => exact names_nil_iff.2 Nat.ofDigitChars_nil
  | append_singleton cs c ih =>
    obtain ⟨hcs, hc⟩ := List.forall_mem_append.1 h
    have hdigit := digit?_of_isDigit (hc c List.mem_cons_self)
    refine names_concat_iff.2 ⟨_, _, ih hcs, (digit?_eq_some_iff (by decide)).1 hdigit, ?_⟩
    rw [Nat.ofDigitChars_append, Nat.ofDigitChars_cons, Nat.ofDigitChars_nil, Nat.mul_comm]

theorem names_iff_of_digits {cs : List Char} {n : Nat} (h : ∀ c ∈ cs, c.isDigit = true) :
    Names 10 cs n ↔ Nat.ofDigitChars 10 cs 0 = n :=
  ⟨(names_of_digits h).unique (by decide), fun hn => hn ▸ names_of_digits h⟩

/-- Digits name their number, also behind a plus sign. -/
theorem read_digits {bound : Nat} {sign cs : List Char} (hsign : sign = [] ∨ sign = ['+'])
    (h : Digits cs) (hlt : Nat.ofDigitChars 10 cs 0 < bound) :
    read 10 bound (sign ++ cs) = .ok (Nat.ofDigitChars 10 cs 0) :=
  (read_eq_ok_iff (by decide) (Nat.zero_lt_of_lt hlt)).2
    ⟨sign, cs, hsign, h.1, rfl, names_of_digits h.2, hlt⟩

theorem digits_toDigits (n : Nat) : Digits (Nat.toDigits 10 n) :=
  ⟨Nat.toDigits_ne_nil, fun _ => Nat.isDigit_of_mem_toDigits (by decide) (by decide)⟩

theorem names_toDigits (n : Nat) : Names 10 (Nat.toDigits 10 n) n := by
  have hnames := names_of_digits (digits_toDigits n).2
  rwa [Nat.ofDigitChars_ten_toDigits] at hnames

theorem read_toDigits {n bound : Nat} (h : n < bound) :
    read 10 bound (Nat.toDigits 10 n) = .ok n :=
  (read_eq_ok_iff (by decide) (Nat.zero_lt_of_lt h)).2
    ⟨[], _, .inl rfl, Nat.toDigits_ne_nil, rfl, names_toDigits n, h⟩

theorem isBlank_of_isDigit {c : Char} (h : c.isDigit = true) : Text.isBlank c = false := by
  simp only [Char.isDigit, ge_iff_le, Bool.and_eq_true, decide_eq_true_eq] at h
  have h0 : '0'.toNat ≤ c.toNat := h.1
  have h9 : c.toNat ≤ '9'.toNat := h.2
  have e0 : '0'.toNat = 48 := rfl
  have e9 : '9'.toNat = 57 := rfl
  simp only [Text.isBlank, Bool.or_eq_false_iff, Bool.and_eq_false_imp, decide_eq_true_eq,
    decide_eq_false_iff_not, Nat.not_le, beq_eq_false_iff_ne, ne_eq]
  omega

/-- Blanks around digits, with or without a plus sign, are taken off. -/
theorem trim_digits {l r sign cs : List Char} (hl : ∀ c ∈ l, Text.isBlank c = true)
    (hr : ∀ c ∈ r, Text.isBlank c = true) (hsign : sign = [] ∨ sign = ['+']) (h : Digits cs) :
    Text.trim (l ++ ((sign ++ cs) ++ r)) = sign ++ cs := by
  have hcs : ∀ c ∈ sign ++ cs, Text.isBlank c = false := by
    refine List.forall_mem_append.2 ⟨fun c hc => ?_, fun c hc => isBlank_of_isDigit (h.2 c hc)⟩
    rcases hsign with rfl | rfl
    · cases hc
    · rw [List.mem_singleton.1 hc]
      decide
  rw [Text.trim_append hl hr]
  exact Text.trim_eq_self (fun c hc => hcs c (List.mem_of_mem_head? hc))
    fun c hc => hcs c (List.mem_of_mem_getLast? hc)

theorem trim_toDigits (n : Nat) : Text.trim (Nat.toDigits 10 n) = Nat.toDigits 10 n := by
  have htrim : Text.trim ([] ++ (([] ++ Nat.toDigits 10 n) ++ [])) = [] ++ Nat.toDigits 10 n :=
    trim_digits nofun nofun (.inl rfl) (digits_toDigits n)
  simpa only [List.nil_append, List.append_nil] using htrim

/-- The first digit of a number is zero only for the number zero, which has one digit. -/
theorem eq_singleton_of_toDigits {n : Nat} {cs : List Char} (h : Nat.toDigits 10 n = '0' :: cs) :
    cs = [] := by
  induction n using Nat.strongRecOn generalizing cs with
  | ind n ih =>
    by_cases hn : n < 10
    · rw [Nat.toDigits_of_lt_base hn] at h
      exact (List.cons.inj h).2.symm
    · rw [Nat.toDigits_of_base_le (by decide) (Nat.le_of_not_lt hn)] at h
      cases hd : Nat.toDigits 10 (n / 10) with
      | nil => exact absurd hd Nat.toDigits_ne_nil
      | cons d ds =>
        rw [hd, List.cons_append] at h
        obtain ⟨rfl, -⟩ := List.cons.inj h
        -- The digits in front would be those of zero, but they name the tenth part.
        have hds := ih (n / 10) (by omega) hd
        have hval : Nat.ofDigitChars 10 (Nat.toDigits 10 (n / 10)) 0 = n / 10 :=
          Nat.ofDigitChars_ten_toDigits
        rw [hd, hds, Nat.ofDigitChars_cons, Nat.ofDigitChars_nil] at hval
        have : '0'.toNat - '0'.toNat = 0 := rfl
        omega

end SlotLayout.Numeral
