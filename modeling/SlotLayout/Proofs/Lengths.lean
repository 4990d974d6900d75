import Mathlib.Data.List.TakeDrop
import Mathlib.Data.List.TakeWhile
import SlotLayout.Proofs.Numerals
import SlotLayout.Shape

/-!
# Lengths of arrays

The label of an array of fixed size ends in its length: decimal digits between brackets, behind a
base that is not empty (`Label.States`). Of the brackets in a label only the last pair counts, as
the digits are looked for from the end of the label (`Label.length?_eq_of_brackets`). A length is
read from a label if and only if the label states it and it is a count
(`Label.length?_eq_some_iff`), and this decides on the shape of a type with elements
(`TypeInfo.shape_of_base_exact`).
-/

namespace SlotLayout

namespace Label

open Numeral (countBound Digits)

/-- The label states the length `n`: decimal digits of it, in brackets at the end of the label,
behind a base that is not empty. The base may have brackets too, and the digits zeros in front. -/
def States (label : String) (n : Nat) : Prop :=
  ∃ base digits : String, base ≠ "" ∧ Digits digits.toList ∧
    label = base ++ "[" ++ digits ++ "]" ∧ Nat.ofDigitChars 10 digits.toList 0 = n

/-- Every length is stated by a label in which it is written. -/
theorem states_toString {base : String} (h : base ≠ "") (n : Nat) :
    States (base ++ "[" ++ toString n ++ "]") n := by
  have htext : (toString n).toList = Nat.toDigits 10 n := by
    rw [Nat.toString_eq_ofList_toDigits, String.toList_ofList]
  refine ⟨base, toString n, h, ?_, rfl, ?_⟩
  · rw [htext]
    exact Numeral.digits_toDigits n
  · rw [htext]
    exact Nat.ofDigitChars_ten_toDigits

theorem reverse_toList_brackets (base digits : String) :
    (base ++ "[" ++ digits ++ "]").toList.reverse =
      ']' :: (digits.toList.reverse ++ '[' :: base.toList.reverse) := by
  simp

/-! ## Reading -/

theorem span_digits {ds rest : List Char} (h : ∀ c ∈ ds, c.isDigit = true) :
    (ds ++ '[' :: rest).span Numeral.isDigit = (ds, '[' :: rest) := by
  have hall : ∀ c ∈ ds, Numeral.isDigit c = true := fun c hc => by rw [Numeral.isDigit_eq, h c hc]
  have hopen : Numeral.isDigit '[' ≠ true := by decide
  rw [List.span_eq_takeWhile_dropWhile, List.takeWhile_append_of_pos hall,
    List.dropWhile_append_of_pos hall, List.takeWhile_cons_of_neg hopen,
    List.dropWhile_cons_of_neg hopen, List.append_nil]

/-- Seen from its end, a label has digits up to its last opening bracket. -/
theorem length?_eq_of_brackets {base digits : String} (hb : base ≠ "") (hd : Digits digits.toList) :
    length? (base ++ "[" ++ digits ++ "]") =
      (Numeral.readOnto 10 countBound 0 digits.toList).toOption := by
  obtain ⟨hne, hdigits⟩ := hd
  have hspan : (digits.toList.reverse ++ '[' :: base.toList.reverse).span Numeral.isDigit =
      (digits.toList.reverse, '[' :: base.toList.reverse) :=
    span_digits fun c hc => hdigits c (List.mem_reverse.1 hc)
  obtain ⟨d, ds, hds⟩ := List.exists_cons_of_ne_nil (List.reverse_ne_nil_iff.2 hne)
  obtain ⟨c, cs, hcs⟩ := List.exists_cons_of_ne_nil
    (List.reverse_ne_nil_iff.2 (mt String.toList_eq_nil_iff.1 hb))
  have hrev : digits.toList = (d :: ds).reverse := by rw [← hds, List.reverse_reverse]
  rw [length?, reverse_toList_brackets]
  simp only [hspan]
  rw [hds, hcs, hrev]
  rfl

/-- A length is read only from digits between brackets. -/
theorem exists_brackets_of_length? {label : String} {n : Nat} (h : length? label = some n) :
    ∃ base digits : String, base ≠ "" ∧ Digits digits.toList ∧
      label = base ++ "[" ++ digits ++ "]" := by
  unfold length? at h
  split at h
  · rename_i back hlabel
    split at h
    · rename_i d ds c cs hspan
      rw [List.span_eq_takeWhile_dropWhile, Prod.mk.injEq] at hspan
      obtain ⟨htake, hdrop⟩ := hspan
      have hback : back = (d :: ds) ++ '[' :: c :: cs := by
        rw [← htake, ← hdrop, List.takeWhile_append_dropWhile]
      refine ⟨String.ofList (c :: cs).reverse, String.ofList (d :: ds).reverse, ?_, ⟨?_, ?_⟩, ?_⟩
      · simp
      · simp
      · intro x hx
        rw [String.toList_ofList, List.mem_reverse, ← htake] at hx
        rw [← Numeral.isDigit_eq]
        exact List.mem_takeWhile_imp hx
      · rw [← String.toList_inj, ← List.reverse_inj, reverse_toList_brackets, hlabel, hback]
        simp
    · cases h
  · cases h

/-- A label has a length if and only if it states one that is a count. -/
theorem length?_eq_some_iff {label : String} {n : Nat} :
    length? label = some n ↔ n < countBound ∧ States label n := by
  have hread : ∀ {base digits : String}, base ≠ "" → Digits digits.toList →
      (length? (base ++ "[" ++ digits ++ "]") = some n ↔
        Nat.ofDigitChars 10 digits.toList 0 = n ∧ n < countBound) := by
    intro base digits hb hd
    rw [length?_eq_of_brackets hb hd, toOption_eq_some_iff,
      Numeral.readOnto_eq_ok_iff (by decide) (by decide), Numeral.names_iff_of_digits hd.2]
  constructor
  · intro h
    obtain ⟨base, digits, hb, hd, rfl⟩ := exists_brackets_of_length? h
    obtain ⟨hvalue, hlt⟩ := (hread hb hd).1 h
    exact ⟨hlt, base, digits, hb, hd, rfl, hvalue⟩
  · rintro ⟨hlt, base, digits, hb, hd, rfl, hvalue⟩
    exact (hread hb hd).2 ⟨hvalue, hlt⟩

theorem length?_eq_none_iff {label : String} :
    length? label = none ↔ ∀ n < countBound, ¬ States label n := by
  simp [Option.eq_none_iff_forall_ne_some, length?_eq_some_iff]

end Label

/-! ## Shapes -/

namespace TypeInfo

open Numeral (countBound)

section

variable {info : TypeInfo} {typeId base : String} (he : info.encoding = .inplace)
  (hm : info.members? = none) (hb : info.base? = some base)
include he hm hb

theorem shape_of_base : info.shape typeId = (Label.length? info.label).elim
    (.error (.malformedArrayLabel info.label)) fun n => .ok (.fixedArray base n) := by
  rw [shape, he, hm, hb]
  cases Label.length? info.label <;> rfl

theorem shape_of_base_eq_ok_iff {shape : Shape} : info.shape typeId = .ok shape ↔
    ∃ n, Label.length? info.label = some n ∧ shape = .fixedArray base n := by
  rw [shape_of_base he hm hb]
  cases Label.length? info.label <;> simp [eq_comm]

theorem shape_of_base_eq_error_iff {e : Collation.Error} : info.shape typeId = .error e ↔
    Label.length? info.label = none ∧ e = .malformedArrayLabel info.label := by
  rw [shape_of_base he hm hb]
  cases Label.length? info.label <;> simp [eq_comm]

end

/-- A type of values in place with elements and without members is that of an array, of the length
that its label states in digits between brackets at its end, if this is a count. If the label states
no count, the error names the label as it is. A length written in a label is read back from it. -/
theorem shape_of_base_exact {info : TypeInfo} {typeId base : String} (he : info.encoding = .inplace)
    (hm : info.members? = none) (hb : info.base? = some base) :
    (∀ shape, info.shape typeId = .ok shape ↔
      ∃ n < countBound, Label.States info.label n ∧ shape = .fixedArray base n) ∧
    (∀ e, info.shape typeId = .error e ↔
      (∀ n < countBound, ¬ Label.States info.label n) ∧ e = .malformedArrayLabel info.label) ∧
    ∀ (front : String) (n : Nat), front ≠ "" → n < countBound →
      { info with label := front ++ "[" ++ toString n ++ "]" }.shape typeId =
        .ok (.fixedArray base n) := by
  refine ⟨fun shape => ?_, fun e => ?_, fun front n hfront hn => ?_⟩
  · simp only [shape_of_base_eq_ok_iff he hm hb, Label.length?_eq_some_iff, and_assoc]
  · rw [shape_of_base_eq_error_iff he hm hb, Label.length?_eq_none_iff]
  · have hlength := Label.length?_eq_some_iff.2 ⟨hn, Label.states_toString hfront n⟩
    exact (shape_of_base_eq_ok_iff (by exact he) (by exact hm) (by exact hb)).2 ⟨n, hlength, rfl⟩

/-- The base has brackets of its own, the largest count has zeros in front of it, and with its last
digit one higher it is no count any more. -/
theorem shape_of_base_exact_largest :
    let info (label : String) : TypeInfo := .fixedArray label 32 "t_uint8"
    (info "uint8[2][0018446744073709551615]").shape "t_xs" =
        .ok (.fixedArray "t_uint8" (countBound - 1)) ∧
      Label.States "uint8[2][0018446744073709551615]" (countBound - 1) ∧
      (info "uint8[18446744073709551616]").shape "t_xs" =
        .error (.malformedArrayLabel "uint8[18446744073709551616]") ∧
      ∀ n < countBound, ¬ Label.States "uint8[18446744073709551616]" n := by
  intro info
  have hexact := fun label => @shape_of_base_exact (info label) "t_xs" "t_uint8" rfl rfl rfl
  have hstates : Label.States "uint8[2][0018446744073709551615]" (countBound - 1) :=
    ⟨"uint8[2]", "0018446744073709551615", nofun, ⟨nofun, List.all_eq_true.1 rfl⟩, rfl, rfl⟩
  have herror : (info "uint8[18446744073709551616]").shape "t_xs" =
      .error (.malformedArrayLabel "uint8[18446744073709551616]") := by
    decide
  refine ⟨((hexact _).1 _).2 ⟨countBound - 1, by decide, hstates, rfl⟩, hstates, herror, ?_⟩
  exact (((hexact _).2.1 _).1 herror).1

end TypeInfo

end SlotLayout
