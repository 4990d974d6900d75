import Mathlib.Data.List.Forall2
import SlotLayout.Json.Number
import SlotLayout.Json.Text
import SlotLayout.Json.Value
import SlotLayout.Proofs.Numerals

/-!
# Literals

A text can be spelled in several ways, as every character can stand for itself or be escaped
(`CharSpelling`, `TextSpelling`), and each of them is read as the text (`scanText_spelling`); what is
written for a text is one of them (`textSpelling_literal`). A reader that only wants to get past a
literal also takes escapes that spell no text (`LooseSpelling`).

Number literals come in the form that JSON prescribes (`NumberSpelling`), and each of them is read
(`NumberSpelling.scan`). What is written for a number of at most 64 bits is read as that number
(`scanNumber_toDigits`). Nothing may follow that could belong to the number (`Separate`).
-/

namespace SlotLayout.Json

open Numeral (Digits digits_toDigits)

/-! ## Text literals -/

/-- How a character stands in a text literal: as itself, as an escape of one letter, as its code
unit, or as the two code units of a surrogate pair. -/
inductive CharSpelling : Char → List Char → Prop
  | plain {c : Char} (hq : c ≠ '"') (hs : c ≠ '\\') (hc : ¬ c.toNat < 0x20) : CharSpelling c [c]
  | letter {c e : Char} (h : escaped? e = some c) : CharSpelling c ['\\', e]
  | unit {c w x y z : Char} (h : codeUnit? w x y z = some c.toNat) :
    CharSpelling c ['\\', 'u', w, x, y, z]
  | pair {c w x y z w' x' y' z' : Char} {lead trail : Nat} (h : codeUnit? w x y z = some lead)
      (h' : codeUnit? w' x' y' z' = some trail) (hl : Strict.isLead lead = true)
      (ht : Strict.isTrail trail = true)
      (hc : c.toNat = 0x10000 + (lead - 0xd800) * 0x400 + (trail - 0xdc00)) :
    CharSpelling c ['\\', 'u', w, x, y, z, '\\', 'u', w', x', y', z']

/-- A text literal: the characters of the text, each in any spelling, between quotes. -/
def TextSpelling (s : String) (cs : List Char) : Prop :=
  ∃ parts, List.Forall₂ CharSpelling s.toList parts ∧ cs = '"' :: parts.flatten ++ ['"']

/-- A part of a literal whose text is of no interest. A surrogate may stand by itself. -/
inductive LoosePart : List Char → Prop
  | plain {c : Char} (hq : c ≠ '"') (hs : c ≠ '\\') (hc : ¬ c.toNat < 0x20) : LoosePart [c]
  | letter {c e : Char} (h : escaped? e = some c) : LoosePart ['\\', e]
  | unit {w x y z : Char} {n : Nat} (h : codeUnit? w x y z = some n) :
    LoosePart ['\\', 'u', w, x, y, z]

/-- A literal whose text is of no interest. -/
def LooseSpelling (cs : List Char) : Prop :=
  ∃ parts : List (List Char), (∀ p ∈ parts, LoosePart p) ∧ cs = '"' :: parts.flatten ++ ['"']

/-- Four hexadecimal digits of a number are those of a code unit. -/
theorem codeUnit?_padded {n : Nat} (h : n < 0x10000) :
    ∃ w x y z, Numeral.padded 16 4 n = [w, x, y, z] ∧ codeUnit? w x y z = some n := by
  refine ⟨_, _, _, _, rfl, ?_⟩
  simp only [codeUnit?, Numeral.digitValue?_digitChar (Nat.mod_lt _ (by decide : 16 > 0)),
    Option.bind_eq_bind, Option.bind_some, Option.pure_def, Option.some.injEq]
  omega

/-- What is written for a character is one of its spellings. -/
theorem charSpelling_writtenChar (c : Char) : CharSpelling c (writtenChar c) := by
  by_cases hq : c = '"'
  · exact hq ▸ .letter (e := '"') rfl
  by_cases hs : c = '\\'
  · exact hs ▸ .letter (e := '\\') rfl
  by_cases hb : c = '\x08'
  · exact hb ▸ .letter (e := 'b') rfl
  by_cases hf : c = '\x0c'
  · exact hf ▸ .letter (e := 'f') rfl
  by_cases hn : c = '\n'
  · exact hn ▸ .letter (e := 'n') rfl
  by_cases hr : c = '\r'
  · exact hr ▸ .letter (e := 'r') rfl
  by_cases ht : c = '\t'
  · exact ht ▸ .letter (e := 't') rfl
  rw [writtenChar, if_neg (not_or.2 ⟨hq, hs⟩), if_neg hb, if_neg hf, if_neg hn, if_neg hr,
    if_neg ht]
  by_cases hc : c.toNat < 0x20
  · obtain ⟨w, x, y, z, hp, hunit⟩ := codeUnit?_padded (Nat.lt_trans hc (by decide))
    rw [if_pos hc, hp]
    exact .unit hunit
  · rw [if_neg hc]
    exact .plain hq hs hc

theorem textSpelling_literal (s : String) : TextSpelling s (literal s) := by
  refine ⟨s.toList.map writtenChar, ?_, ?_⟩
  · exact List.forall₂_map_right_iff.2 (List.forall₂_same.2 fun c _ => charSpelling_writtenChar c)
  · rw [literal, List.flatMap_def]

section Scan

variable {read : Strict} {rest : List Symbol}

theorem scanText_quote : scanText read (.char '"' :: rest) = .closed read.close rest := by
  rw [scanText.eq_def]
  dsimp only
  rw [if_pos rfl]

theorem scanText_plain {c : Char} (hq : c ≠ '"') (hs : c ≠ '\\') (hc : ¬ c.toNat < 0x20) :
    scanText read (.char c :: rest) = scanText (read.push c) rest := by
  rw [scanText.eq_def]
  dsimp only
  rw [if_neg hq, if_neg hs, if_neg hc]

theorem scanText_letter {c e : Char} (he : escaped? e = some c) :
    scanText read (.char '\\' :: .char e :: rest) = scanText (read.push c) rest := by
  have hu : e ≠ 'u' := by
    rintro rfl
    cases he
  rw [scanText.eq_def]
  dsimp only
  rw [if_neg (by decide), if_pos rfl, if_neg hu, he]

theorem scanText_unit {w x y z : Char} {n : Nat} (h : codeUnit? w x y z = some n) :
    scanText read (.char '\\' :: .char 'u' :: .char w :: .char x :: .char y :: .char z :: rest) =
      scanText (read.pushUnit n) rest := by
  rw [scanText.eq_def]
  dsimp only
  rw [if_neg (by decide), if_pos rfl, if_pos rfl, h]

theorem pushUnit_char (c : Char) (before : List Char) :
    (Strict.reading before false none).pushUnit c.toNat = .reading (c :: before) false none := by
  have hvalid : c.toNat < 0xd800 ∨ 0xdfff < c.toNat := by
    rcases c.valid with h | h
    · exact .inl h
    · exact .inr h.1
  have htrail : Strict.isTrail c.toNat = false := by
    simp only [Strict.isTrail, Bool.and_eq_false_iff, decide_eq_false_iff_not]
    omega
  have hlead : Strict.isLead c.toNat = false := by
    simp only [Strict.isLead, Bool.and_eq_false_iff, decide_eq_false_iff_not]
    omega
  simp [Strict.pushUnit, htrail, hlead]

theorem pushUnit_pair {c : Char} {lead trail : Nat} (hl : Strict.isLead lead = true)
    (ht : Strict.isTrail trail = true)
    (hc : c.toNat = 0x10000 + (lead - 0xd800) * 0x400 + (trail - 0xdc00)) (before : List Char) :
    ((Strict.reading before false none).pushUnit lead).pushUnit trail =
      .reading (c :: before) false none := by
  have hnot : Strict.isTrail lead = false := by
    simp only [Strict.isLead, Bool.and_eq_true, decide_eq_true_eq] at hl
    simp only [Strict.isTrail, Bool.and_eq_false_iff, decide_eq_false_iff_not]
    omega
  simp [Strict.pushUnit, hl, ht, hnot, ← hc]

/-- A character is read from each of its spellings. -/
theorem CharSpelling.scan {c : Char} {cs : List Char} (h : CharSpelling c cs) (before : List Char) :
    scanText (.reading before false none) (cs.map .char ++ rest) =
      scanText (.reading (c :: before) false none) rest := by
  cases h with
  | plain hq hs hc => exact scanText_plain hq hs hc
  | letter he => exact scanText_letter he
  | unit hn => exact (scanText_unit hn).trans (by rw [pushUnit_char]; rfl)
  | pair hn hn' hl ht hc =>
    refine (scanText_unit hn).trans ((scanText_unit hn').trans ?_)
    rw [pushUnit_pair hl ht hc]
    rfl

/-- From behind its opening quote, a text literal is read as the text. -/
theorem scanText_spelling {s : String} {cs : List Char} (h : TextSpelling s cs) :
    ∃ body, cs = '"' :: body ∧
      ∀ rest, scanText .start (body.map .char ++ rest) = .closed (.ok s) rest := by
  obtain ⟨parts, hparts, rfl⟩ := h
  refine ⟨parts.flatten ++ ['"'], rfl, fun rest => ?_⟩
  suffices h : ∀ before text, List.Forall₂ CharSpelling text parts →
      scanText (.reading before false none) ((parts.flatten ++ ['"']).map .char ++ rest) =
        .closed (.ok (String.ofList (before.reverse ++ text))) rest by
    rw [Strict.start, h [] s.toList hparts, List.reverse_nil, List.nil_append, String.ofList_toList]
  clear hparts
  intro before text hparts
  induction hparts generalizing before with
  | nil =>
    rw [List.append_nil]
    exact scanText_quote
  | cons hc _ ih =>
    rw [List.flatten_cons, List.append_assoc, List.map_append, List.append_assoc, hc.scan, ih,
      List.reverse_cons, List.append_assoc]
    rfl

/-- What a part does to what was read before does not depend on what comes behind it. -/
theorem LoosePart.scan {p : List Char} (h : LoosePart p) (read : Strict) :
    ∃ read', ∀ rest, scanText read (p.map .char ++ rest) = scanText read' rest := by
  cases h with
  | plain hq hs hc => exact ⟨_, fun _ => scanText_plain hq hs hc⟩
  | letter he => exact ⟨_, fun _ => scanText_letter he⟩
  | unit hn => exact ⟨_, fun _ => scanText_unit hn⟩

/-- Any literal is read in full, whether it spells a text or not. -/
theorem LooseSpelling.scan {cs : List Char} (h : LooseSpelling cs) :
    ∃ body read, cs = '"' :: body ∧
      ∀ rest, scanText .start (body.map .char ++ rest) = .closed read rest := by
  obtain ⟨parts, hparts, rfl⟩ := h
  suffices h : ∀ before, ∃ read, ∀ rest,
      scanText before ((parts.flatten ++ ['"']).map .char ++ rest) = .closed read rest by
    obtain ⟨read, hread⟩ := h .start
    exact ⟨_, read, rfl, hread⟩
  induction parts with
  | nil => exact fun before => ⟨_, fun _ => scanText_quote⟩
  | cons p parts ih =>
    intro before
    obtain ⟨hp, hparts⟩ := List.forall_mem_cons.1 hparts
    obtain ⟨before', hscan⟩ := hp.scan before
    obtain ⟨read, hread⟩ := ih hparts before'
    refine ⟨read, fun rest => ?_⟩
    rw [List.flatten_cons, List.append_assoc, List.map_append, List.append_assoc, hscan, hread]

end Scan

/-! ## Number literals -/

/-- The values of decimal digits. -/
def digitValues (cs : List Char) : List Nat := cs.map fun c => c.toNat - '0'.toNat

/-- The exponent of a number literal, or none. -/
inductive ExponentSpelling : List Char → Prop
  | absent : ExponentSpelling []
  | present {mark : Char} {sign digits : List Char} (hmark : mark = 'e' ∨ mark = 'E')
    (hsign : sign = [] ∨ sign = ['+'] ∨ sign = ['-']) (hdigits : Digits digits) :
    ExponentSpelling (mark :: sign ++ digits)

/-- The fraction of a number literal, or none. -/
inductive FractionSpelling : List Char → Prop
  | absent : FractionSpelling []
  | present {digits : List Char} (hdigits : Digits digits) : FractionSpelling ('.' :: digits)

/-- A number literal: maybe a minus sign, digits of which only a zero by itself begins with zero, and
maybe a fraction and an exponent. -/
def NumberSpelling (cs : List Char) : Prop :=
  ∃ sign whole fraction exponent, (sign = [] ∨ sign = ['-']) ∧ Digits whole ∧
    (whole.head? = some '0' → whole = ['0']) ∧ FractionSpelling fraction ∧
      ExponentSpelling exponent ∧ cs = sign ++ (whole ++ (fraction ++ exponent))

/-- What follows a number does not go on with it. -/
def Separate (rest : List Symbol) : Prop :=
  ∀ s ∈ rest.head?, s.digit? = none ∧ s.isExponentMark = false ∧ s ≠ .char '.' ∧
    ∀ reason, s ≠ .fault reason

theorem Separate.digit?_eq_none {rest : List Symbol} (h : Separate rest) :
    ∀ s ∈ rest.head?, s.digit? = none := fun s hs => (h s hs).1

theorem digit?_of_isDigit {c : Char} (h : c.isDigit = true) :
    (Symbol.char c).digit? = some (c.toNat - '0'.toNat) := by
  rw [Symbol.digit?, Numeral.isDigit_eq, if_pos h]

theorem eq_zero_of_digit {c : Char} (h : c.isDigit = true) (hzero : c.toNat - '0'.toNat = 0) :
    c = '0' := by
  simp only [Char.isDigit, ge_iff_le, Bool.and_eq_true, decide_eq_true_eq] at h
  have hle : '0'.toNat ≤ c.toNat := h.1
  exact Char.toNat_inj.1 (by omega)

section Scan

variable {l : Literal} {rest : List Symbol}

theorem spanDigits_append {cs : List Char} (h : ∀ c ∈ cs, c.isDigit = true)
    (hrest : ∀ s ∈ rest.head?, s.digit? = none) :
    spanDigits (cs.map .char ++ rest) = (digitValues cs, rest) := by
  induction cs with
  | nil =>
    cases rest with
    | nil => rfl
    | cons s rest =>
      rw [List.map_nil, List.nil_append, spanDigits, hrest s rfl]
      rfl
  | cons c cs ih =>
    obtain ⟨hc, hcs⟩ := List.forall_mem_cons.1 h
    rw [List.map_cons, List.cons_append, spanDigits, digit?_of_isDigit hc, ih hcs]
    rfl

/-- What nothing goes on with is complete. -/
theorem complete_separate (h : Separate rest) :
    NumberScan.complete l rest = .done l.value rest := by
  unfold NumberScan.complete
  split
  · exact absurd rfl ((h _ rfl).2.2.2 _)
  · rfl

theorem scanExponent_separate (h : Separate rest) : scanExponent l rest = .done l.value rest := by
  cases rest with
  | nil => rfl
  | cons s rest =>
    rw [scanExponent, (h s rfl).2.1, if_neg Bool.false_ne_true]
    exact complete_separate h

theorem scanFraction_of_ne (h : ∀ s ∈ rest.head?, s ≠ .char '.') :
    scanFraction l rest = scanExponent l rest := by
  unfold scanFraction
  split
  · exact absurd rfl (h _ rfl)
  · rfl

/-- The digits before a fraction or exponent are all taken. -/
theorem scanUnsigned_append {cs : List Char} (h : Digits cs)
    (hzero : cs.head? = some '0' → cs = ['0']) (hrest : ∀ s ∈ rest.head?, s.digit? = none)
    (negative : Bool) : scanUnsigned negative (cs.map .char ++ rest) =
      scanFraction ⟨negative, digitValues cs, [], none⟩ rest := by
  rw [scanUnsigned, spanDigits_append h.2 hrest]
  split
  · rename_i heq
    exact absurd (List.map_eq_nil_iff.1 (Prod.mk.inj heq).1) h.1
  · rename_i heq
    -- A second digit behind a zero would make the literal invalid.
    obtain ⟨c, cs, rfl⟩ := List.exists_cons_of_ne_nil h.1
    obtain ⟨hc, hmore⟩ := List.cons.inj (Prod.mk.inj heq).1
    have hcs := hzero (congrArg some (eq_zero_of_digit (h.2 c List.mem_cons_self) hc))
    rw [(List.cons.inj hcs).2] at hmore
    cases hmore
  · rename_i heq
    obtain ⟨hds, rfl⟩ := Prod.mk.inj heq
    rw [hds]

/-- What begins with a digit has no sign. -/
theorem scanNumber_of_digits {cs : List Char} (h : Digits cs) :
    scanNumber (cs.map .char ++ rest) = scanUnsigned false (cs.map .char ++ rest) := by
  obtain ⟨c, cs, rfl⟩ := List.exists_cons_of_ne_nil h.1
  unfold scanNumber
  split
  · rename_i heq
    cases heq
    exact absurd (h.2 '-' List.mem_cons_self) (by decide)
  · rfl

theorem spanSign_append {sign digits : List Char} (hsign : sign = [] ∨ sign = ['+'] ∨ sign = ['-'])
    (hdigits : Digits digits) : ∃ negative, ∀ rest : List Symbol,
      spanSign (sign.map .char ++ (digits.map .char ++ rest)) =
        (negative, digits.map .char ++ rest) := by
  rcases hsign with rfl | rfl | rfl
  · obtain ⟨c, cs, rfl⟩ := List.exists_cons_of_ne_nil hdigits.1
    have hc := hdigits.2 c List.mem_cons_self
    refine ⟨false, fun rest => ?_⟩
    show spanSign (.char c :: (cs.map .char ++ rest)) = (false, .char c :: (cs.map .char ++ rest))
    unfold spanSign
    split
    · rename_i heq
      cases heq
      exact absurd hc (by decide)
    · rename_i heq
      cases heq
      exact absurd hc (by decide)
    · rfl
  · exact ⟨false, fun _ => rfl⟩
  · exact ⟨true, fun _ => rfl⟩

/-- Neither an exponent nor what follows it goes on with the digits before it. -/
theorem ExponentSpelling.head {cs : List Char} (h : ExponentSpelling cs) (hrest : Separate rest) :
    ∀ s ∈ (cs.map Symbol.char ++ rest).head?, s.digit? = none ∧ s ≠ .char '.' := by
  cases h with
  | absent => exact fun s hs => ⟨(hrest s hs).1, (hrest s hs).2.2.1⟩
  | present hmark =>
    rintro s ⟨⟩
    rcases hmark with rfl | rfl <;> exact ⟨rfl, by decide⟩

theorem ExponentSpelling.scan {cs : List Char} (h : ExponentSpelling cs) (l : Literal) :
    ∃ l' : Literal, ∀ rest, Separate rest →
      scanExponent l (cs.map .char ++ rest) = .done l'.value rest := by
  cases h with
  | absent => exact ⟨l, fun rest hrest => scanExponent_separate hrest⟩
  | @present mark sign digits hmark hsign hdigits =>
    obtain ⟨negative, hspan⟩ := spanSign_append hsign hdigits
    have hmark : (Symbol.char mark).isExponentMark = true := by
      rcases hmark with rfl | rfl <;> rfl
    obtain ⟨c, cs, rfl⟩ := List.exists_cons_of_ne_nil hdigits.1
    refine ⟨{ l with exponent := some (negative, digitValues (c :: cs)) }, fun rest hrest => ?_⟩
    rw [List.cons_append, List.map_cons, List.cons_append, List.map_append, List.append_assoc,
      scanExponent, if_pos hmark, hspan, spanDigits_append hdigits.2 hrest.digit?_eq_none]
    exact complete_separate hrest

/-- Neither a fraction nor what follows it goes on with the digits before it. -/
theorem FractionSpelling.head {cs cs' : List Char} (h : FractionSpelling cs)
    (h' : ExponentSpelling cs') (hrest : Separate rest) :
    ∀ s ∈ (cs.map Symbol.char ++ (cs'.map Symbol.char ++ rest)).head?, s.digit? = none := by
  cases h with
  | absent => exact fun s hs => (h'.head hrest s hs).1
  | present =>
    rintro s ⟨⟩
    rfl

theorem FractionSpelling.scan {cs cs' : List Char} (h : FractionSpelling cs)
    (h' : ExponentSpelling cs') (l : Literal) : ∃ l' : Literal, ∀ rest, Separate rest →
      scanFraction l (cs.map .char ++ (cs'.map .char ++ rest)) = .done l'.value rest := by
  cases h with
  | absent =>
    obtain ⟨l', hl'⟩ := h'.scan l
    refine ⟨l', fun rest hrest => ?_⟩
    exact (scanFraction_of_ne fun s hs => (h'.head hrest s hs).2).trans (hl' rest hrest)
  | @present digits hdigits =>
    obtain ⟨c, cs, rfl⟩ := List.exists_cons_of_ne_nil hdigits.1
    obtain ⟨l', hl'⟩ := h'.scan { l with fraction := digitValues (c :: cs) }
    refine ⟨l', fun rest hrest => ?_⟩
    rw [List.map_cons, List.cons_append, scanFraction,
      spanDigits_append hdigits.2 fun s hs => (h'.head hrest s hs).1]
    exact hl' rest hrest

/-- A number literal is read in full, whatever the number is. -/
theorem NumberSpelling.scan {cs : List Char} (h : NumberSpelling cs) :
    ∃ l : Literal, ∀ rest, Separate rest →
      scanNumber (cs.map .char ++ rest) = .done l.value rest := by
  obtain ⟨sign, whole, fraction, exponent, hsign, hwhole, hzero, hf, he, rfl⟩ := h
  have hunsigned : ∀ negative, ∃ l : Literal, ∀ rest, Separate rest →
      scanUnsigned negative ((whole ++ (fraction ++ exponent)).map .char ++ rest) =
        .done l.value rest := by
    intro negative
    obtain ⟨l, hl⟩ := hf.scan he ⟨negative, digitValues whole, [], none⟩
    refine ⟨l, fun rest hrest => ?_⟩
    rw [List.map_append, List.map_append, List.append_assoc, List.append_assoc,
      scanUnsigned_append hwhole hzero (hf.head he hrest), hl rest hrest]
  rcases hsign with rfl | rfl
  · obtain ⟨l, hl⟩ := hunsigned false
    refine ⟨l, fun rest hrest => Eq.trans ?_ (hl rest hrest)⟩
    rw [List.nil_append, List.map_append, List.append_assoc]
    exact scanNumber_of_digits hwhole
  · exact hunsigned true

end Scan

/-- Digits of a number of at most 64 bits are all gathered. -/
theorem gather_digitValues {cs : List Char} {acc : Nat}
    (h : Nat.ofDigitChars 10 cs acc < Numeral.countBound) :
    Literal.gather acc (digitValues cs) = (Nat.ofDigitChars 10 cs acc, []) := by
  induction cs generalizing acc with
  | nil => rw [digitValues, List.map_nil, Literal.gather, Nat.ofDigitChars_nil]
  | cons c cs ih =>
    rw [Nat.ofDigitChars_cons, Nat.mul_comm] at h ⊢
    have hstep := Nat.lt_of_le_of_lt (Numeral.le_ofDigitChars cs _) h
    rw [digitValues, List.map_cons, Literal.gather, if_pos hstep]
    exact ih h

theorem value_of_gather {ds : List Nat} {n : Nat} (h : Literal.gather 0 ds = (n, [])) :
    (⟨false, ds, [], none⟩ : Literal).value = .ok (.natural n) := by
  rw [Literal.value]
  dsimp only
  rw [h]
  rfl

/-- A written number is read as that number. -/
theorem scanNumber_toDigits {n : Nat} (hn : n < Numeral.countBound) {rest : List Symbol}
    (hrest : Separate rest) :
    scanNumber ((Nat.toDigits 10 n).map .char ++ rest) = .done (.ok (.natural n)) rest := by
  have hgather : Literal.gather 0 (digitValues (Nat.toDigits 10 n)) = (n, []) := by
    rw [gather_digitValues (by rwa [Nat.ofDigitChars_ten_toDigits]), Nat.ofDigitChars_ten_toDigits]
  have hzero : (Nat.toDigits 10 n).head? = some '0' → Nat.toDigits 10 n = ['0'] := by
    intro h
    obtain ⟨cs, hcs⟩ := List.head?_eq_some_iff.1 h
    rw [hcs, Numeral.eq_singleton_of_toDigits hcs]
  rw [scanNumber_of_digits (digits_toDigits n),
    scanUnsigned_append (digits_toDigits n) hzero hrest.digit?_eq_none,
    scanFraction_of_ne fun s hs => (hrest s hs).2.2.1, scanExponent_separate hrest,
    value_of_gather hgather]

end SlotLayout.Json
