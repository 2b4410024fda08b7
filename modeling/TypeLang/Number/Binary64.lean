/-!
# Binary64 magnitudes

The finite values without sign of the 64-bit binary format, as a significand and a power of two.
Arithmetic is exact arithmetic followed by one rounding to the nearest value, where a tie goes to
the even significand; what rounds past the largest value is no value.
-/
namespace TypeLang

/-- The value `significand * 2 ^ exponent`. -/
structure Binary64 where
  significand : Nat
  exponent : Int
  deriving DecidableEq, Repr, Inhabited

namespace Binary64

def precision : Nat := 53

def minExponent : Int := -1074

def maxExponent : Int := 971

def zero : Binary64 := ⟨0, minExponent⟩

def isZero (x : Binary64) : Bool := x.significand == 0

/-- A quotient rounded to the nearest integer, a tie to the even one. -/
def roundQuotient (n d : Nat) : Nat :=
  let q := n / d
  let r := n % d
  if 2 * r < d ∨ (2 * r = d ∧ q % 2 = 0) then q else q + 1

/-- The factors of numerator and denominator for a power of `base`. -/
def powerFactors (base : Nat) (e : Int) : Nat × Nat :=
  (Nat.pow base e.toNat, Nat.pow base (-e).toNat)

/-- The largest `l` with `2 ^ l ≤ n / d`, for positive `n` and `d`. -/
def floorLog2 (n d : Nat) : Int :=
  let l : Int := (Nat.log2 n : Int) - (Nat.log2 d : Int)
  let (up, down) := powerFactors 2 l
  if d * up ≤ n * down then l else l - 1

/-- The value nearest to `n / d`. -/
def ofQuotient? (n d : Nat) : Option Binary64 :=
  if n = 0 then some zero
  else
    let exponent := max (floorLog2 n d - (precision - 1 : Nat)) minExponent
    let (up, down) := powerFactors 2 exponent
    let significand := roundQuotient (n * down) (d * up)
    let x : Binary64 :=
      if significand = Nat.pow 2 precision then ⟨Nat.pow 2 (precision - 1), exponent + 1⟩
      else ⟨significand, exponent⟩
    if x.exponent ≤ maxExponent then some x else none

/-- The value nearest to `n / d * 2 ^ e`. -/
def ofScaled? (n d : Nat) (e : Int) : Option Binary64 :=
  let (up, down) := powerFactors 2 e
  ofQuotient? (n * up) (d * down)

def ofNat? (n : Nat) : Option Binary64 := ofQuotient? n 1

def mul? (x y : Binary64) : Option Binary64 :=
  ofScaled? (x.significand * y.significand) 1 (x.exponent + y.exponent)

def div? (x y : Binary64) : Option Binary64 :=
  ofScaled? x.significand y.significand (x.exponent - y.exponent)

end Binary64

end TypeLang
