import TypeLang.Number.Binary64

/-!
# Shortest decimals

Each binary value stands for the interval of numbers that round to it. Its shortest decimal has the
fewest digits among the decimals in that interval, and is the nearest to the value among those; a
tie goes to the even digit.
-/
namespace TypeLang

/-- The number `digits * 10 ^ exponent`. -/
structure Decimal where
  digits : Nat
  exponent : Int
  deriving DecidableEq, Repr, Inhabited

namespace Binary64

/-- Compares `a * 10 ^ i` with `n * 2 ^ j`. -/
def compareScaled (a : Nat) (i : Int) (n : Nat) (j : Int) : Ordering :=
  let (tenUp, tenDown) := powerFactors 10 i
  let (twoUp, twoDown) := powerFactors 2 j
  compare (a * tenUp * twoDown) (n * twoUp * tenDown)

/-- Whether the value below is half as far away as the value above. -/
def isNarrowBelow (x : Binary64) : Bool :=
  x.significand == Nat.pow 2 (precision - 1) && minExponent < x.exponent

/-- Whether a decimal rounds to the value: it lies between the midpoints to the neighbours, or on
one of them when the significand is even. -/
def readsBack (x : Binary64) (d : Decimal) : Bool :=
  let low := if x.isNarrowBelow then 4 * x.significand - 1 else 4 * x.significand - 2
  let high := 4 * x.significand + 2
  let isEven := x.significand % 2 == 0
  let fromLow := compareScaled d.digits d.exponent low (x.exponent - 2)
  let fromHigh := compareScaled d.digits d.exponent high (x.exponent - 2)
  (fromLow == .gt || (isEven && fromLow == .eq)) && (fromHigh == .lt || (isEven && fromHigh == .eq))

/-- The number of digits in front of the decimal point: the least `k` with the value below
`10 ^ k`. The binary exponent tells it up to two. -/
def decimalExponent (x : Binary64) : Int :=
  let log2 : Int := (Nat.log2 x.significand : Int) + x.exponent
  let guess := log2 * 30103 / 100000
  let isAbove (k : Int) : Bool := compareScaled 1 k x.significand x.exponent == .gt
  if isAbove guess then guess else if isAbove (guess + 1) then guess + 1 else guess + 2

/-- The two neighbours of the value among the multiples of `10 ^ e`, the lower one first. -/
def neighbours (x : Binary64) (e : Int) : Decimal × Decimal :=
  let (tenUp, tenDown) := powerFactors 10 e
  let (twoUp, twoDown) := powerFactors 2 x.exponent
  let n := x.significand * twoUp * tenDown / (tenUp * twoDown)
  (⟨n, e⟩, ⟨n + 1, e⟩)

/-- The nearer of two neighbouring decimals. -/
def nearer (x : Binary64) (low high : Decimal) : Decimal :=
  match compareScaled (low.digits + high.digits) low.exponent x.significand (x.exponent + 1) with
  | .gt => low
  | .lt => high
  | .eq => if low.digits % 2 = 0 then low else high

/-- The best decimal among the multiples of `10 ^ e`. -/
def bestOn? (x : Binary64) (e : Int) : Option Decimal :=
  let (low, high) := x.neighbours e
  match x.readsBack low, x.readsBack high with
  | true, true => some (x.nearer low high)
  | true, false => some low
  | false, true => some high
  | false, false => none

/-- The value itself as a decimal. -/
def exactDecimal (x : Binary64) : Decimal :=
  let shift := (-x.exponent).toNat
  ⟨x.significand * Nat.pow 2 x.exponent.toNat * Nat.pow 5 shift, -(shift : Int)⟩

/-- The shortest decimal of a positive value. Seventeen digits suffice. -/
def shortest (x : Binary64) : Decimal :=
  let k := x.decimalExponent
  ((List.range' 1 17).findSome? fun (count : Nat) => x.bestOn? (k - count)).getD x.exactDecimal

end Binary64

namespace Decimal

/-- Moves trailing zeros of the digits into the exponent. -/
def stripZeros (d : Decimal) : Decimal :=
  if h : d.digits % 10 = 0 ∧ d.digits ≠ 0 then stripZeros ⟨d.digits / 10, d.exponent + 1⟩ else d
termination_by d.digits
decreasing_by exact Nat.div_lt_self (Nat.pos_of_ne_zero h.2) (by decide)

end Decimal

end TypeLang
