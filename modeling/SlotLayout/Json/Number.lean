import SlotLayout.Json.Error
import SlotLayout.Json.Symbol

/-!
# Number literals

A number literal is a sign, digits without a leading zero, and optionally a fraction and an
exponent. A lax reader checks that form only. A strict reader also evaluates the literal: whole
numbers of up to 64 bits exactly, all others as floating point numbers, of which those too large are
errors.
-/

namespace SlotLayout.Json

/-- The parts of a number literal; digits by their values. -/
structure Literal where
  negative : Bool
  whole : List Nat
  fraction : List Nat
  /-- Whether the exponent is negative, and its digits. -/
  exponent : Option (Bool × List Nat)
  deriving DecidableEq, Repr

namespace Literal

/-- Takes digits onto a value for as long as it keeps within 64 bits; what is left over follows. -/
def gather (value : Nat) : List Nat → Nat × List Nat
  | [] => (value, [])
  | d :: ds =>
    if value * 10 + d < Numeral.countBound then gather (value * 10 + d) ds else (value, d :: ds)

/-- The value of digits. -/
def valueOf (digits : List Nat) : Nat := digits.foldl (fun n d => n * 10 + d) 0

/-- The largest exponent that is looked at. -/
def exponentBound : Nat := Nat.pow 2 31 - 1

/-- The largest magnitude of a negative whole number. -/
def negativeBound : Nat := Nat.pow 2 63

/-- Whether an exponent by itself puts a number with these leading digits out of range. -/
def exponentTooLarge (significand : Nat) : Option (Bool × List Nat) → Bool
  | some (false, digits) => significand ≠ 0 && exponentBound < valueOf digits
  | _ => false

/-- The leading digits that take part in a floating point value, and the power of ten they count. -/
def significand (l : Literal) : Nat × Int :=
  let (value, cut) := gather 0 l.whole
  let (value, unused) := gather value l.fraction
  (value, cut.length - (l.fraction.length - unused.length : Nat))

/-- The floating point value of a literal. -/
def float (l : Literal) : Except Error Number :=
  let (digits, exponent) := l.significand
  if exponentTooLarge digits l.exponent then .error .numberTooLarge
  else
    let shift : Int := match l.exponent with
      | none => 0
      | some (true, ds) => -(valueOf ds)
      | some (false, ds) => valueOf ds
    match Decimal.Binary64.scaled? digits (exponent + shift) with
    | some x => .ok (.float l.negative x)
    | none => .error .numberTooLarge

/-- The value of a literal. Without a fraction and an exponent it is whole if it has at most 64
bits; a negative zero is a floating point number. -/
def value (l : Literal) : Except Error Number :=
  match l.fraction, l.exponent, gather 0 l.whole with
  | [], none, (n, []) =>
    if l.negative then
      if 0 < n ∧ n ≤ negativeBound then .ok (.negative n) else l.float
    else .ok (.natural n)
  | _, _, _ => l.float

end Literal

/-- What a scan of a number literal finds: the strict reader's result and what follows, or the
errors of the two readers. -/
inductive NumberScan where
  | done (read : Except Error Number) (rest : List Symbol)
  | broken (strict lax : Error)

/-- The value of a decimal digit. -/
def Symbol.digit? : Symbol → Option Nat
  | .char c => if Numeral.isDigit c then some (c.toNat - '0'.toNat) else none
  | _ => none

/-- The run of digits that the input starts with, and what follows it. -/
def spanDigits : List Symbol → List Nat × List Symbol
  | [] => ([], [])
  | s :: rest =>
    match s.digit? with
    | none => ([], s :: rest)
    | some d =>
      let (ds, after) := spanDigits rest
      (d :: ds, after)

/-- The scan where a digit is missing: a strict reader blames the end of the input for it. -/
def NumberScan.missingDigit : List Symbol → NumberScan
  | [] => .broken (.endOfInput .value) .invalidNumber
  | .fault reason :: _ => .broken (.unreadable reason) (.unreadable reason)
  | _ => .broken .invalidNumber .invalidNumber

/-- The scan of a literal that is complete once `rest` has been seen not to continue it. -/
def NumberScan.complete (l : Literal) : List Symbol → NumberScan
  | .fault reason :: _ =>
    if Literal.exponentTooLarge l.significand.1 l.exponent then
      .broken .numberTooLarge (.unreadable reason)
    else .broken (.unreadable reason) (.unreadable reason)
  | rest => .done l.value rest

/-- Whether a symbol starts an exponent. -/
def Symbol.isExponentMark : Symbol → Bool
  | .char c => c = 'e' || c = 'E'
  | _ => false

/-- The sign of an exponent, and what follows it. -/
def spanSign : List Symbol → Bool × List Symbol
  | .char '-' :: rest => (true, rest)
  | .char '+' :: rest => (false, rest)
  | rest => (false, rest)

/-- Scans the exponent, if one follows. -/
def scanExponent (l : Literal) : List Symbol → NumberScan
  | [] => .complete l []
  | s :: rest =>
    if s.isExponentMark then
      match spanDigits (spanSign rest).2 with
      | ([], after) => .missingDigit after
      | (d :: ds, after) =>
        .complete { l with exponent := some ((spanSign rest).1, d :: ds) } after
    else .complete l (s :: rest)

/-- Scans the fraction, if one follows, and the exponent. -/
def scanFraction (l : Literal) : List Symbol → NumberScan
  | .char '.' :: rest =>
    match spanDigits rest with
    | ([], after) => .missingDigit after
    | (d :: ds, after) => scanExponent { l with fraction := d :: ds } after
  | rest => scanExponent l rest

/-- Scans a number literal without its sign. -/
def scanUnsigned (negative : Bool) (input : List Symbol) : NumberScan :=
  match spanDigits input with
  | ([], after) => .missingDigit after
  | (0 :: _ :: _, _) => .broken .invalidNumber .invalidNumber
  | (d :: ds, after) => scanFraction ⟨negative, d :: ds, [], none⟩ after

/-- Scans a number literal. -/
def scanNumber : List Symbol → NumberScan
  | .char '-' :: rest => scanUnsigned true rest
  | input => scanUnsigned false input

/-! ## Progress -/

theorem length_spanDigits (input : List Symbol) :
    (spanDigits input).1.length + (spanDigits input).2.length = input.length := by
  induction input with
  | nil => rfl
  | cons s rest ih =>
    unfold spanDigits
    split
    · exact Nat.zero_add _
    · simp only [List.length_cons]
      omega

theorem complete_eq_done {l : Literal} {input rest : List Symbol} {n : Except Error Number}
    (h : NumberScan.complete l input = .done n rest) : rest = input := by
  unfold NumberScan.complete at h
  split at h
  · split at h <;> cases h
  · cases h; rfl

theorem missingDigit_ne_done {input rest : List Symbol} {n : Except Error Number} :
    NumberScan.missingDigit input ≠ .done n rest := by
  unfold NumberScan.missingDigit
  split <;> simp

theorem length_spanSign_le (input : List Symbol) :
    (spanSign input).2.length ≤ input.length := by
  unfold spanSign
  split <;> simp

theorem length_le_of_spanDigits {input after : List Symbol} {ds : List Nat}
    (h : spanDigits input = (ds, after)) : ds.length + after.length = input.length := by
  rw [← length_spanDigits input, h]

theorem length_le_of_scanExponent {l : Literal} {input rest : List Symbol}
    {n : Except Error Number} (h : scanExponent l input = .done n rest) :
    rest.length ≤ input.length := by
  unfold scanExponent at h
  split at h
  · exact Nat.le_of_eq (congrArg List.length (complete_eq_done h))
  · rename_i s more
    split at h
    · split at h
      · exact absurd h missingDigit_ne_done
      · rename_i d ds after heq
        have hd := length_le_of_spanDigits heq
        have hs := length_spanSign_le more
        rw [complete_eq_done h, List.length_cons]
        simp only [List.length_cons] at hd
        omega
    · exact Nat.le_of_eq (congrArg List.length (complete_eq_done h))

theorem length_le_of_scanFraction {l : Literal} {input rest : List Symbol}
    {n : Except Error Number} (h : scanFraction l input = .done n rest) :
    rest.length ≤ input.length := by
  unfold scanFraction at h
  split at h
  · rename_i more
    split at h
    · exact absurd h missingDigit_ne_done
    · rename_i d ds after heq
      have hd := length_le_of_spanDigits heq
      have := length_le_of_scanExponent h
      simp only [List.length_cons] at hd ⊢
      omega
  · exact length_le_of_scanExponent h

theorem length_lt_of_scanUnsigned {negative : Bool} {input rest : List Symbol}
    {n : Except Error Number} (h : scanUnsigned negative input = .done n rest) :
    rest.length < input.length := by
  unfold scanUnsigned at h
  split at h
  · exact absurd h missingDigit_ne_done
  · cases h
  · rename_i d ds after _ heq
    have hd := length_le_of_spanDigits heq
    have := length_le_of_scanFraction h
    simp only [List.length_cons] at hd
    omega

/-- A number literal takes up at least one digit. -/
theorem length_lt_of_scanNumber {input rest : List Symbol} {n : Except Error Number}
    (h : scanNumber input = .done n rest) : rest.length < input.length := by
  unfold scanNumber at h
  split at h
  · have := length_lt_of_scanUnsigned h
    simp only [List.length_cons]
    omega
  · exact length_lt_of_scanUnsigned h

end SlotLayout.Json
