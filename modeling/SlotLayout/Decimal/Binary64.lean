/-!
# Double precision numbers

Finite magnitudes of the IEEE 754 format binary64, as whole multiples of powers of two, and the
rounding of quotients to them (nearest, ties to the even mantissa). `Binary64.scaled` reads `digits
· 10 ^ exponent` with one rounding for the digits, one for the power of ten and one for their
product or quotient, so its result may lie a few units from the nearest double.
-/

namespace SlotLayout.Decimal

/-- The magnitude `mantissa · 2 ^ exponent`. -/
structure Binary64 where
  mantissa : Nat
  exponent : Int
  deriving DecidableEq, Repr

namespace Binary64

/-- The exponent of the smallest magnitudes. -/
def leastExponent : Int := -1074

/-- The exponent of the largest magnitudes. -/
def greatestExponent : Int := 971

/-- The magnitude zero. -/
def zero : Binary64 := ⟨0, leastExponent⟩

/-- Whether a magnitude is zero. -/
def isZero (x : Binary64) : Bool := x.mantissa == 0

/-- The whole number nearest to a quotient, the even one of two. -/
def roundHalfEven (num den : Nat) : Nat :=
  let below := num / den
  let rest := 2 * (num % den)
  if rest < den ∨ (rest = den ∧ below % 2 = 0) then below else below + 1

/-- The exponent of the greatest power of two that is at most a positive quotient. -/
def floorLog2 (num den : Nat) : Int :=
  let guess : Int := (num.log2 : Int) - den.log2
  if den * Nat.pow 2 guess.toNat ≤ num * Nat.pow 2 (-guess).toNat then guess else guess - 1

/-- The magnitude nearest to a quotient, unless that is too large to be finite. -/
def ofRatio? (num den : Nat) : Option Binary64 :=
  if num = 0 then some zero
  else
    let exponent := max (floorLog2 num den - 52) leastExponent
    let mantissa :=
      roundHalfEven (num * Nat.pow 2 (-exponent).toNat) (den * Nat.pow 2 exponent.toNat)
    let rounded : Binary64 :=
      if mantissa = Nat.pow 2 53 then ⟨Nat.pow 2 52, exponent + 1⟩ else ⟨mantissa, exponent⟩
    if rounded.exponent ≤ greatestExponent then some rounded else none

/-- Numerator of a magnitude in lowest powers of two. -/
def num (x : Binary64) : Nat := x.mantissa * Nat.pow 2 x.exponent.toNat

/-- Denominator that goes with `num`. -/
def den (x : Binary64) : Nat := Nat.pow 2 (-x.exponent).toNat

/-- The product of two magnitudes, rounded. -/
def mul? (x y : Binary64) : Option Binary64 := ofRatio? (x.num * y.num) (x.den * y.den)

/-- The quotient of two magnitudes, rounded. -/
def div? (x y : Binary64) : Option Binary64 := ofRatio? (x.num * y.den) (x.den * y.num)

/-- The magnitude nearest to a power of ten. -/
def tenTo? (n : Nat) : Option Binary64 := ofRatio? (Nat.pow 10 n) 1

/-- A magnitude times a power of ten, if finite. Powers beyond `10 ^ 308` are taken in steps. -/
def scale? (x : Binary64) (exponent : Int) : Option Binary64 :=
  if exponent.natAbs ≤ 308 then do
    let power ← tenTo? exponent.natAbs
    if 0 ≤ exponent then x.mul? power else x.div? power
  else if x.isZero then some x
  else if 0 ≤ exponent then none
  else do
    let power ← tenTo? 308
    let y ← x.div? power
    y.scale? (exponent + 308)
termination_by exponent.natAbs

/-- The magnitude read for a whole number of digits times a power of ten. -/
def scaled? (digits : Nat) (exponent : Int) : Option Binary64 := do
  (← ofRatio? digits 1).scale? exponent

end Binary64

end SlotLayout.Decimal
