import SlotLayout.Decimal.Binary64

/-!
# Shortest decimals

The decimal with the fewest digits among those that read back as a given double precision
magnitude, and of several the one nearest to it (`shortest`), and its layout as a text (`Layout`).
-/

namespace SlotLayout.Decimal

/-- The decimal `digits · 10 ^ exponent`. -/
structure Scientific where
  digits : Nat
  exponent : Int
  deriving DecidableEq, Repr

/-- The reals that round to a magnitude, in quarters of its last place: from `low` to `high` around
`mid`, the ends included where `closed`. -/
structure Neighbourhood where
  low : Nat
  mid : Nat
  high : Nat
  closed : Bool
  deriving Repr

/-- The neighbourhood of a magnitude. Below a power of two the doubles lie twice as close. -/
def Binary64.neighbourhood (x : Binary64) : Neighbourhood where
  low := 4 * x.mantissa -
    (if x.mantissa = Nat.pow 2 52 ∧ Binary64.leastExponent < x.exponent then 1 else 2)
  mid := 4 * x.mantissa
  high := 4 * x.mantissa + 2
  closed := x.mantissa % 2 = 0

/-- Whether `value / den` lies in a neighbourhood whose bounds count multiples of `num / den`. -/
def Neighbourhood.holds (n : Neighbourhood) (num value : Nat) : Bool :=
  if n.closed then n.low * num ≤ value && value ≤ n.high * num
  else n.low * num < value && value < n.high * num

/-- The multiple of `10 ^ exponent` nearest to a magnitude, of those that read back as it. -/
def Binary64.onGrid? (x : Binary64) (exponent : Int) : Option Scientific :=
  let n := x.neighbourhood
  let num := Nat.pow 2 (x.exponent - 2).toNat * Nat.pow 10 (-exponent).toNat
  let den := Nat.pow 2 (2 - x.exponent).toNat * Nat.pow 10 exponent.toNat
  let nearest := Binary64.roundHalfEven (n.mid * num) den
  let below := n.mid * num / den
  let hits := [nearest, below, below + 1].filter fun k => k ≠ 0 && n.holds num (k * den)
  hits.head?.map fun k => ⟨k, exponent⟩

/-- The hit on the coarsest of the grids from `10 ^ top` down, `steps` of them. -/
def Binary64.coarsest? (x : Binary64) (top : Int) : Nat → Option Scientific
  | 0 => none
  | steps + 1 => (x.onGrid? top).or (x.coarsest? (top - 1) steps)

/-- The shortest decimal that reads back as a magnitude. -/
def shortest (x : Binary64) : Scientific :=
  if x.isZero then ⟨0, 0⟩ else (x.coarsest? 308 640).getD ⟨0, 0⟩

/-- The exponents whose decimals are written without one, and whether an exponent that is not
negative has a plus sign. -/
structure Layout where
  leastPositional : Int
  greatestPositional : Int
  plusSign : Bool

/-- The decimal point stands after the first digit of what is written with an exponent; a whole
number keeps one place. -/
def Layout.write (layout : Layout) (d : Scientific) : String :=
  let digits := Nat.toDigits 10 d.digits
  let exponent := d.exponent + digits.length - 1
  if layout.leastPositional ≤ exponent ∧ exponent ≤ layout.greatestPositional then
    let whole := digits.take (exponent + 1).toNat ++
      List.replicate (exponent + 1 - digits.length).toNat '0'
    let places := List.replicate (-exponent - 1).toNat '0' ++ digits.drop (exponent + 1).toNat
    String.ofList ((if whole.isEmpty then ['0'] else whole) ++
      '.' :: (if places.isEmpty then ['0'] else places))
  else
    let fraction := match digits.drop 1 with
      | [] => []
      | places => '.' :: places
    let sign := if exponent < 0 then "-" else if layout.plusSign then "+" else ""
    String.ofList (digits.take 1 ++ fraction) ++ "e" ++ sign ++ toString exponent.natAbs

end SlotLayout.Decimal
