import TypeLang.Number.Shortest
import TypeLang.Text.Hex

/-!
# Numerals

Numbers as a document writes them, the numbers they stand for, and how numbers are written. A
numeral without fraction and exponent is an integer when 64 bits hold it. Every other one is a
binary value: its significand takes digits as long as 64 bits hold them, and is scaled by one power
of ten. Binary values are written with the fewest digits that read back, positionally from `1e-5` on
and below `1e16`, otherwise with a signed exponent.
-/
namespace TypeLang.Json

open Text

/-- A number as written. -/
structure Numeral where
  negative : Bool
  /-- The digits in front of the point. -/
  whole : List Nat
  /-- The digits behind the point; there are some when there is a point. -/
  fraction : List Nat
  exponent : Option Int
  deriving DecidableEq, Repr, Inhabited

inductive Number where
  | integer (value : Int)
  | binary (negative : Bool) (magnitude : Binary64)
  deriving DecidableEq, Repr, Inhabited

namespace Numeral

/-- Cuts the decimal digits off the front. -/
def cutDigits : List Char → List Nat × List Char
  | [] => ([], [])
  | c :: cs =>
    match digitValue? 10 c with
    | none => ([], c :: cs)
    | some digit =>
      let (digits, rest) := cutDigits cs
      (digit :: digits, rest)

/-- The number that digits stand for. -/
def ofDigits (digits : List Nat) : Nat := digits.foldl (fun n digit => 10 * n + digit) 0

/-- Cuts the digits in front of the point off; only a lone zero starts with zero. -/
def cutWhole? (cs : List Char) : Option (List Nat × List Char) :=
  match cutDigits cs with
  | ([], _) => none
  | (0 :: _ :: _, _) => none
  | cut => some cut

/-- Cuts the point and the digits behind it off, if there is a point. -/
def cutFraction? (cs : List Char) : Option (List Nat × List Char) :=
  match cs with
  | '.' :: rest =>
    match cutDigits rest with
    | ([], _) => none
    | cut => some cut
  | _ => some ([], cs)

/-- Reads digits to the end. -/
def readAll? (cs : List Char) : Option Nat :=
  match cutDigits cs with
  | (digit :: digits, []) => some (ofDigits (digit :: digits))
  | _ => none

/-- Reads what stands behind the exponent mark. -/
def readSigned? (cs : List Char) : Option Int :=
  match cs with
  | '-' :: rest => (readAll? rest).map fun n => -(n : Int)
  | '+' :: rest => (readAll? rest).map fun n => (n : Int)
  | rest => (readAll? rest).map fun n => (n : Int)

/-- Reads the exponent, if there is one, up to the end. -/
def readExponent? (cs : List Char) : Option (Option Int) :=
  match cs with
  | [] => some none
  | c :: rest => if c = 'e' ∨ c = 'E' then (readSigned? rest).map some else none

def readMagnitude? (negative : Bool) (cs : List Char) : Option Numeral := do
  let (whole, cs) ← cutWhole? cs
  let (fraction, cs) ← cutFraction? cs
  let exponent ← readExponent? cs
  return { negative, whole, fraction, exponent }

def read? (cs : List Char) : Option Numeral :=
  match cs with
  | '-' :: rest => readMagnitude? true rest
  | _ => readMagnitude? false cs

def maxSignificand : Nat := 0xFFFFFFFFFFFFFFFF

/-- Appends digits to a significand until one does not fit, and counts the digits left over. -/
def takeDigits (significand : Nat) : List Nat → Nat × Nat
  | [] => (significand, 0)
  | digit :: digits =>
    let next := 10 * significand + digit
    if next ≤ maxSignificand then takeDigits next digits else (significand, digits.length + 1)

/-- The integer that a numeral is, when it is one within 64 bits. There is no negative zero. -/
def integer? (n : Numeral) : Option Int :=
  if n.fraction.isEmpty && n.exponent.isNone then
    let value := ofDigits n.whole
    if n.negative then
      if value = 0 ∨ 0x8000000000000000 < value then none else some (-(value : Int))
    else if value ≤ maxSignificand then some value else none
  else none

/-- The largest power of ten by which a value is scaled at once. -/
def maxScale : Nat := 308

/-- A value divided by a power of ten, in steps for large powers. -/
def divideByPower (x : Binary64) (e : Nat) : Option Binary64 := do
  if x.isZero then return x
  else if maxScale < e then
    divideByPower (← x.div? (← Binary64.ofNat? (Nat.pow 10 maxScale))) (e - maxScale)
  else x.div? (← Binary64.ofNat? (Nat.pow 10 e))
termination_by e
decreasing_by
  simp only [maxScale] at *
  omega

/-- A value multiplied by a power of ten. -/
def multiplyByPower (x : Binary64) (e : Nat) : Option Binary64 := do
  if x.isZero then return x
  else if maxScale < e then none
  else x.mul? (← Binary64.ofNat? (Nat.pow 10 e))

/-- The magnitude of the binary value of a numeral, when it is not too large. -/
def magnitude? (n : Numeral) : Option Binary64 := do
  let (significand, skipped) := takeDigits 0 n.whole
  let (significand, ignored) := takeDigits significand n.fraction
  let e := (skipped : Int) - (n.fraction.length - ignored : Nat) + n.exponent.getD 0
  let x ← Binary64.ofNat? significand
  if e < 0 then divideByPower x (-e).toNat else multiplyByPower x e.toNat

/-- The number that a numeral stands for, when it is not too large. -/
def number? (n : Numeral) : Option Number :=
  match n.integer? with
  | some value => some (.integer value)
  | none => n.magnitude?.map (.binary n.negative)

end Numeral

/-- Writes a decimal whose digits do not end with zero. -/
def decimalText (d : Decimal) : String :=
  let digits := toString d.digits
  let point : Int := digits.length + d.exponent
  let zeros (n : Int) : String := "".pushn '0' n.toNat
  if 0 < point ∧ point ≤ 16 then
    if 0 ≤ d.exponent then digits ++ zeros d.exponent ++ ".0"
    else
      let (front, back) := digits.toList.splitAt point.toNat
      String.ofList front ++ "." ++ String.ofList back
  else if -4 ≤ point ∧ point ≤ 0 then "0." ++ zeros (-point) ++ digits
  else
    let e := point - 1
    let sign := if e < 0 then "-" else "+"
    let mantissa := match digits.toList with
      | first :: second :: rest => String.ofList (first :: '.' :: second :: rest)
      | _ => digits
    mantissa ++ "e" ++ sign ++ toString e.natAbs

def magnitudeText (x : Binary64) : String :=
  if x.isZero then "0.0" else decimalText x.shortest.stripZeros

def Number.text : Number → String
  | integer value => toString value
  | binary negative magnitude => (if negative then "-" else "") ++ magnitudeText magnitude

end TypeLang.Json
