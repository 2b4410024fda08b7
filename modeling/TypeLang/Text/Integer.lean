import TypeLang.Text.Hex

/-!
# Bounded integers

Integers written in a radix and read into a bounded range. A text is refused at its first faulty
character: one that is no digit, or the digit that takes the value past the bound. One plus sign
may stand in front; a minus sign is part of signed numbers only.
-/
namespace TypeLang.Text

/-- Why a text is no integer of the wanted range. -/
inductive IntegerError where
  | empty
  | invalidDigit
  | tooLarge
  deriving DecidableEq, Repr

def IntegerError.message : IntegerError → String
  | .empty => "cannot parse integer from empty string"
  | .invalidDigit => "invalid digit found in string"
  | .tooLarge => "number too large to fit in target type"

/-- Reads digits behind the value `acc` read so far; `limit` is the largest value allowed. -/
def readDigits (radix limit : Nat) : Nat → List Char → Except IntegerError Nat
  | acc, [] => .ok acc
  | acc, c :: cs =>
    match digitValue? radix c with
    | none => .error .invalidDigit
    | some digit =>
      let next := acc * radix + digit
      if next ≤ limit then readDigits radix limit next cs else .error .tooLarge

/-- Reads a magnitude; a text without digits is refused as `onEmpty`. -/
private def readMagnitude (radix limit : Nat) (onEmpty : IntegerError) :
    List Char → Except IntegerError Nat
  | [] => .error onEmpty
  | cs => readDigits radix limit 0 cs

/-- Reads an unsigned integer of at most `limit`. -/
def readUnsigned (radix limit : Nat) : List Char → Except IntegerError Nat
  | '+' :: cs => readMagnitude radix limit .invalidDigit cs
  | cs => readMagnitude radix limit .empty cs

theorem readUnsigned_of_plus_notMem {radix limit : Nat} {cs : List Char} (hne : cs ≠ [])
    (hplus : '+' ∉ cs) : readUnsigned radix limit cs = readDigits radix limit 0 cs := by
  cases cs with
  | nil => exact absurd rfl hne
  | cons c cs =>
    rw [readUnsigned]
    · rfl
    · rintro rest ⟨⟩
      exact hplus List.mem_cons_self

def maxWord : Nat := 0xFFFFFFFF

/-- Reads an unsigned 32-bit integer. -/
def readWord (radix : Nat) (cs : List Char) : Except IntegerError UInt32 :=
  (readUnsigned radix maxWord cs).map UInt32.ofNat

/-- Reads a signed 32-bit decimal as the word with the same bits. -/
def readSignedWord (cs : List Char) : Except IntegerError UInt32 :=
  match cs with
  | '-' :: digits =>
    (readMagnitude 10 0x80000000 .invalidDigit digits).map fun n => 0 - UInt32.ofNat n
  | cs => (readUnsigned 10 0x7FFFFFFF cs).map UInt32.ofNat

end TypeLang.Text
