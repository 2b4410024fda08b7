import TypeLang.Json.Token
import TypeLang.Proofs.Text.Numerals

/-!
# Integers in documents

An integer that 64 bits hold is written as a numeral that is read as that integer again. The one
integer literal in range that is no integer is the negative zero; it is a binary value, which is
read back from what is written for it too.
-/
namespace TypeLang.Json

open Text

/-- A number that is read from what is written for it. -/
structure Number.ReadsBack (value : Number) : Prop where
  isNumeralPart : ∀ c ∈ value.text.toList, Token.Scan.isNumeralPart c
  read : (Numeral.read? value.text.toList).bind Numeral.number? = some value

namespace Numeral

variable {cs : List Char} {digits : List Nat} {n : Nat} {c : Char} {numeral : Numeral}

/-! ## Digits -/

theorem ofDigits_concat (digits : List Nat) (digit : Nat) :
    ofDigits (digits ++ [digit]) = 10 * ofDigits digits + digit := by
  simp [ofDigits]

/-- One more digit is cut with those before it. -/
theorem cutDigits_concat {digit : Nat} (h : cutDigits cs = (digits, []))
    (hdigit : digitValue? 10 c = some digit) : cutDigits (cs ++ [c]) = (digits ++ [digit], []) := by
  induction cs generalizing digits with
  | nil =>
    cases h
    simp [cutDigits, hdigit]
  | cons d cs ih =>
    simp only [cutDigits] at h
    split at h
    · cases h
    · next first hfirst =>
      obtain ⟨rfl, hrest⟩ := Prod.mk.inj h
      rw [List.cons_append, cutDigits, hfirst]
      simp [ih (Prod.ext rfl hrest)]

/-- The digits of a number are cut off as they were written, without a zero in front. -/
theorem exists_cutDigits_toDigits (n : Nat) : ∃ digit digits,
    cutDigits (Nat.toDigits 10 n) = (digit :: digits, []) ∧ ofDigits (digit :: digits) = n ∧
      (digit = 0 → digits = []) := by
  induction n using Nat.strongRecOn with
  | ind n ih =>
    by_cases hsmall : n < 10
    · have hempty : cutDigits [] = ([], []) := rfl
      rw [Nat.toDigits_of_lt_base hsmall]
      refine ⟨n, [], cutDigits_concat hempty (digitValue?_digitChar hsmall), ?_, fun _ => rfl⟩
      simp [ofDigits]
    · obtain ⟨digit, digits, hcut, hvalue, hzero⟩ := ih (n / 10) (by omega)
      have hmod : n % 10 < 10 := Nat.mod_lt n (by decide)
      rw [Nat.toDigits_of_base_le (by decide) (by omega)]
      refine ⟨digit, digits ++ [n % 10], cutDigits_concat hcut (digitValue?_digitChar hmod), ?_, ?_⟩
      · rw [← List.cons_append, ofDigits_concat, hvalue]
        omega
      · rintro rfl
        rw [hzero rfl] at hvalue
        simp [ofDigits] at hvalue
        omega

/-- A significand takes all digits of a number that it can hold. -/
theorem takeDigits_of_le {significand : Nat}
    (h : digits.foldl (fun n digit => 10 * n + digit) significand ≤ maxSignificand) :
    takeDigits significand digits =
      (digits.foldl (fun n digit => 10 * n + digit) significand, 0) := by
  induction digits generalizing significand with
  | nil => rfl
  | cons digit digits ih =>
    have hle : ∀ (digits : List Nat) (start : Nat),
        start ≤ digits.foldl (fun n digit => 10 * n + digit) start := by
      intro digits
      induction digits with
      | nil => exact fun start => Nat.le_refl start
      | cons digit digits ih =>
        intro start
        exact Nat.le_trans (by omega) (ih (10 * start + digit))
    rw [takeDigits]
    simp only [Nat.le_trans (hle digits _) h, if_true]
    exact ih h

/-! ## Integers -/

/-- A number without fraction and exponent, as it is read. -/
theorem readMagnitude?_toDigits (negative : Bool) (n : Nat) : ∃ whole,
    readMagnitude? negative (Nat.toDigits 10 n) = some ⟨negative, whole, [], none⟩ ∧
      ofDigits whole = n := by
  obtain ⟨digit, digits, hcut, hvalue, hzero⟩ := exists_cutDigits_toDigits n
  have hwhole : cutWhole? (Nat.toDigits 10 n) = some (digit :: digits, []) := by
    simp only [cutWhole?, hcut]
    split
    · simp_all
    · simp_all
    · rfl
  refine ⟨digit :: digits, ?_, hvalue⟩
  rw [readMagnitude?, hwhole]
  rfl

theorem read?_of_head? (h : cs.head? ≠ some '-') : read? cs = readMagnitude? false cs := by
  rw [read?]
  rintro rest rfl
  exact h rfl

/-- The number that a numeral without fraction and exponent stands for. -/
def value (numeral : Numeral) : Int :=
  if numeral.negative then -(ofDigits numeral.whole : Int) else ofDigits numeral.whole

/-- An integer literal in the range of integers with 64 bits, signed or unsigned. -/
structure IsInteger (numeral : Numeral) : Prop where
  fraction : numeral.fraction = []
  exponent : numeral.exponent = none
  lower : -0x8000000000000000 ≤ numeral.value
  upper : numeral.value ≤ 0xFFFFFFFFFFFFFFFF

/-- An integer numeral is its value, unless it is minus zero. -/
theorem IsInteger.integer?_eq (h : numeral.IsInteger) : numeral.integer? =
    if numeral.negative ∧ numeral.value = 0 then none else some numeral.value := by
  obtain ⟨hfraction, hexponent, hlower, hupper⟩ := h
  have hform : (numeral.fraction.isEmpty && numeral.exponent.isNone) = true := by
    simp [hfraction, hexponent]
  simp only [integer?, hform, if_true]
  cases hnegative : numeral.negative with
  | true =>
    simp only [value, hnegative, if_true, true_and] at hlower ⊢
    by_cases hzero : ofDigits numeral.whole = 0
    · rw [if_pos (.inl hzero), if_pos (by omega)]
    · rw [if_neg (by omega), if_neg (by omega)]
  | false =>
    have hle : ofDigits numeral.whole ≤ maxSignificand := by
      simp only [value, hnegative, Bool.false_eq_true, if_false] at hupper
      exact Int.ofNat_le.mp hupper
    simp [value, hnegative, hle]

theorem number?_eq_integer_iff {i : Int} :
    numeral.number? = some (.integer i) ↔ numeral.integer? = some i := by
  rw [number?]
  cases numeral.integer? <;> simp

/-- An integer is read back. -/
theorem readsBack_integer {i : Int} (hlower : -0x8000000000000000 ≤ i)
    (hupper : i ≤ 0xFFFFFFFFFFFFFFFF) : (Number.integer i).ReadsBack := by
  have hdigit : ∀ digit < 10, Token.Scan.isNumeralPart digit.digitChar := by decide
  have hnumber : ∀ {negative whole}, value ⟨negative, whole, [], none⟩ = i →
      ¬(negative ∧ i = 0) → number? ⟨negative, whole, [], none⟩ = some (.integer i) := by
    intro negative whole hvalue hsign
    have hinteger : IsInteger ⟨negative, whole, [], none⟩ :=
      ⟨rfl, rfl, hvalue ▸ hlower, hvalue ▸ hupper⟩
    rw [number?_eq_integer_iff, hinteger.integer?_eq, hvalue, if_neg hsign]
  by_cases hi : 0 ≤ i
  · have htext : (Number.integer i).text.toList = Nat.toDigits 10 i.toNat := by
      rw [Number.text, Int.toString_eq_repr, Int.repr_eq_if, if_pos hi, Nat.toList_repr]
    obtain ⟨whole, hread, hwhole⟩ := readMagnitude?_toDigits false i.toNat
    have hhead : (Nat.toDigits 10 i.toNat).head? ≠ some '-' := fun hhead =>
      forall_mem_toDigits (P := (· ≠ '-')) (by decide) _ _ (List.mem_of_head? hhead) rfl
    have hvalue : value ⟨false, whole, [], none⟩ = i := by
      simp only [value, hwhole, Bool.false_eq_true, if_false]
      omega
    refine ⟨htext ▸ forall_mem_toDigits hdigit _, ?_⟩
    rw [htext, read?_of_head? hhead, hread, Option.bind_some, hnumber hvalue (by simp)]
  · have htext : (Number.integer i).text.toList = '-' :: Nat.toDigits 10 (-i).toNat := by
      rw [Number.text, Int.toString_eq_repr, Int.repr_eq_if, if_neg hi, String.toList_append,
        Nat.toList_repr]
      rfl
    obtain ⟨whole, hread, hwhole⟩ := readMagnitude?_toDigits true (-i).toNat
    have hvalue : value ⟨true, whole, [], none⟩ = i := by
      simp only [value, hwhole, if_true]
      omega
    refine ⟨?_, ?_⟩
    · rw [htext, List.forall_mem_cons]
      exact ⟨by decide, forall_mem_toDigits hdigit _⟩
    · rw [htext, read?, hread, Option.bind_some, hnumber hvalue (by omega)]

/-- The number of an integer literal in range is read back. -/
theorem exists_number?_of_isInteger (h : numeral.IsInteger) :
    ∃ value, numeral.number? = some value ∧ value.ReadsBack := by
  by_cases hzero : numeral.negative ∧ numeral.value = 0
  · -- Integers have no negative zero, so it is read as a binary value.
    obtain ⟨negative, whole, fraction, exponent⟩ := numeral
    obtain ⟨rfl, hvalue⟩ := hzero
    obtain ⟨rfl, rfl, -, -⟩ := h
    have hwhole : ofDigits whole = 0 := by simpa [value] using hvalue
    have hparts : (Number.binary true .zero).text.toList.all Token.Scan.isNumeralPart := by
      decide +kernel
    refine ⟨.binary true .zero, ?_, List.all_eq_true.mp hparts, by decide +kernel⟩
    have hnone : integer? ⟨true, whole, [], none⟩ = none := by simp [integer?, hwhole]
    have htake : takeDigits 0 whole = (0, 0) := by
      have hle : ofDigits whole ≤ maxSignificand := by simp [hwhole]
      rw [takeDigits_of_le hle]
      exact congrArg (·, 0) hwhole
    have hmagnitude : magnitude? ⟨true, whole, [], none⟩ = some .zero := by
      simp only [magnitude?, htake]
      rfl
    rw [number?, hnone, hmagnitude]
    rfl
  · have hinteger : numeral.integer? = some numeral.value := by rw [h.integer?_eq, if_neg hzero]
    exact ⟨_, number?_eq_integer_iff.mpr hinteger, readsBack_integer h.lower h.upper⟩

end Numeral

end TypeLang.Json
