/-!
# Numerals

Digit texts and the numbers below a bound that they name. A numeral is read from the left, and the
first thing that goes wrong names the failure: a character that is no digit of the radix, or a
value that reaches the bound. One plus sign may stand in front.

* `Numeral.read`: the number a text names;
* `Numeral.padded`: a number in a fixed count of digits.
-/

namespace SlotLayout.Numeral

/-- Why a text names no number. -/
inductive Error where
  | empty
  | invalidDigit
  | tooLarge
  deriving DecidableEq, Repr

/-- The wording of a failure. -/
def Error.message : Error → String
  | .empty => "cannot parse integer from empty string"
  | .invalidDigit => "invalid digit found in string"
  | .tooLarge => "number too large to fit in target type"

/-- Counts of bytes are kept below this bound, `2 ^ 64`. -/
def countBound : Nat := Nat.pow 2 64

/-- An ASCII decimal digit. -/
def isDigit (c : Char) : Bool := '0' ≤ c && c ≤ '9'

/-- The value of a digit in radices up to sixteen; a letter counts in either case. -/
def digitValue? (c : Char) : Option Nat :=
  if '0' ≤ c ∧ c ≤ '9' then some (c.toNat - '0'.toNat)
  else if 'a' ≤ c ∧ c ≤ 'f' then some (c.toNat - 'a'.toNat + 10)
  else if 'A' ≤ c ∧ c ≤ 'F' then some (c.toNat - 'A'.toNat + 10)
  else none

/-- The value of a digit of the given radix. -/
def digit? (radix : Nat) (c : Char) : Option Nat :=
  (digitValue? c).filter (· < radix)

/-- Reads digits onto the value `acc` of those before them. -/
def readOnto (radix bound acc : Nat) : List Char → Except Error Nat
  | [] => .ok acc
  | c :: cs =>
    match digit? radix c with
    | none => .error .invalidDigit
    | some d =>
      if acc * radix + d < bound then readOnto radix bound (acc * radix + d) cs
      else .error .tooLarge

/-- The number below `bound` that a text names: digits, with at most one plus sign before them.
A sign that stands alone is no digit. -/
def read (radix bound : Nat) : List Char → Except Error Nat
  | [] => .error .empty
  | '+' :: c :: cs => readOnto radix bound 0 (c :: cs)
  | cs => readOnto radix bound 0 cs

/-- The digit of a value below sixteen, in lower case. -/
def digitChar (d : Nat) : Char :=
  if d < 10 then Char.ofNat ('0'.toNat + d) else Char.ofNat ('a'.toNat + (d - 10))

/-- The last `width` digits of a number, leading zeros included. -/
def padded (radix : Nat) : Nat → Nat → List Char
  | 0, _ => []
  | width + 1, n => padded radix width (n / radix) ++ [digitChar (n % radix)]

@[simp] theorem length_padded (radix width n : Nat) : (padded radix width n).length = width := by
  induction width generalizing n with
  | zero => rfl
  | succ width ih => simp [padded, ih]

end SlotLayout.Numeral
