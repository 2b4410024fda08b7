import Mathlib.Data.Nat.Digits.Lemmas
import TypeLang.Text.Integer

/-!
# Numerals

Written numbers are read back: hexadecimal digits of any fixed count, and decimal digits without
leading zeros. What holds of the digits holds of every character of a numeral. Digits that are
written by hand, with leading zeros and in either case, are read as the number that they spell.
-/
namespace TypeLang.Text

variable {radix limit acc n digit : Nat} {c : Char} {cs : List Char} {digits : List Nat}

/-- One more digit at the end. -/
theorem readDigits_concat (hread : readDigits radix limit acc cs = .ok n)
    (hdigit : digitValue? radix c = some digit) (hlimit : n * radix + digit ≤ limit) :
    readDigits radix limit acc (cs ++ [c]) = .ok (n * radix + digit) := by
  induction cs generalizing acc with
  | nil =>
    cases hread
    simp [readDigits, hdigit, hlimit]
  | cons d cs ih =>
    simp only [List.cons_append, readDigits] at hread ⊢
    split at hread
    · cases hread
    · next value hvalue =>
      split at hread
      · next hle =>
        rw [if_pos hle]
        exact ih hread
      · cases hread

/-- What is read as digits has no other characters. -/
theorem digitValue?_of_readDigits (h : readDigits radix limit acc cs = .ok n) :
    ∀ c ∈ cs, digitValue? radix c ≠ none := by
  induction cs generalizing acc with
  | nil => simp
  | cons c cs ih =>
    simp only [readDigits] at h
    split at h
    · cases h
    · next digit hdigit =>
      split at h
      · exact List.forall_mem_cons.mpr ⟨by simp [hdigit], ih h⟩
      · cases h

/-! ## Hexadecimal digits -/

theorem digitValue?_hexDigit (h : digit < 16) : digitValue? 16 (hexDigit digit) = some digit := by
  revert digit
  decide

/-- Digits that are enough for a number are read as that number. -/
theorem readDigits_hexDigits {count : Nat} (hcount : n < 16 ^ count) (hlimit : n ≤ limit) :
    readDigits 16 limit 0 (hexDigits count n) = .ok n := by
  induction count generalizing n with
  | zero =>
    have hzero : n = 0 := by simpa using hcount
    rw [hzero]
    rfl
  | succ count ih =>
    have hn : n / 16 * 16 + n % 16 = n := by omega
    have hfront : readDigits 16 limit 0 (hexDigits count (n / 16)) = .ok (n / 16) :=
      ih (by rw [Nat.pow_succ] at hcount; omega) (by omega)
    have hdigit := digitValue?_hexDigit (Nat.mod_lt n (by decide : 0 < 16))
    rw [hexDigits, readDigits_concat hfront hdigit (by omega), hn]

theorem forall_mem_hexDigits {P : Char → Prop} (h : ∀ digit < 16, P (hexDigit digit))
    (count n : Nat) : ∀ c ∈ hexDigits count n, P c := by
  induction count generalizing n with
  | zero => simp [hexDigits]
  | succ count ih =>
    rw [hexDigits, List.forall_mem_append, List.forall_mem_singleton]
    exact ⟨ih _, h _ (Nat.mod_lt n (by decide))⟩

theorem utf8ByteSize_cons (c : Char) (cs : List Char) :
    (String.ofList (c :: cs)).utf8ByteSize = c.utf8Size + (String.ofList cs).utf8ByteSize := by
  rw [String.ofList_cons, String.utf8ByteSize_append, String.utf8ByteSize_singleton]

theorem length_le_utf8ByteSize (cs : List Char) : cs.length ≤ (String.ofList cs).utf8ByteSize := by
  induction cs with
  | nil => exact Nat.zero_le _
  | cons c cs ih =>
    have hc := c.utf8Size_pos
    rw [utf8ByteSize_cons, List.length_cons]
    omega

/-- A text of ASCII has as many bytes as characters. -/
theorem utf8ByteSize_of_forall (h : ∀ c ∈ cs, c.utf8Size = 1) :
    (String.ofList cs).utf8ByteSize = cs.length := by
  induction cs with
  | nil => rfl
  | cons c cs ih =>
    obtain ⟨hc, hcs⟩ := List.forall_mem_cons.mp h
    rw [utf8ByteSize_cons, ih hcs, hc, List.length_cons, Nat.add_comm]

theorem utf8ByteSize_hexDigits (count n : Nat) :
    (String.ofList (hexDigits count n)).utf8ByteSize = count := by
  have hsize : ∀ c ∈ hexDigits count n, c.utf8Size = 1 := forall_mem_hexDigits (by decide) count n
  rw [utf8ByteSize_of_forall hsize, length_hexDigits]

/-- A word written with eight digits is read back. -/
theorem readWord_hexDigits (id : UInt32) : readWord 16 (hexDigits 8 id.toNat) = .ok id := by
  have hplus : '+' ∉ hexDigits 8 id.toNat := fun hmem =>
    forall_mem_hexDigits (P := (· ≠ '+')) (by decide) _ _ _ hmem rfl
  have hread : readDigits 16 maxWord 0 (hexDigits 8 id.toNat) = .ok id.toNat :=
    readDigits_hexDigits id.toNat_lt (Nat.le_of_lt_succ id.toNat_lt)
  rw [readWord, readUnsigned_of_plus_notMem (by simp [hexDigits]) hplus, hread]
  simp [Except.map]

/-! ## Decimal digits -/

theorem digitValue?_digitChar (h : digit < 10) :
    digitValue? 10 digit.digitChar = some digit := by
  revert digit
  decide

/-- A number is read back from its decimal digits. -/
theorem readDigits_toDigits (hlimit : n ≤ limit) :
    readDigits 10 limit 0 (Nat.toDigits 10 n) = .ok n := by
  induction n using Nat.strongRecOn with
  | ind n ih =>
    by_cases hsmall : n < 10
    · have hempty : readDigits 10 limit 0 [] = .ok 0 := rfl
      rw [Nat.toDigits_of_lt_base hsmall]
      simpa using readDigits_concat hempty (digitValue?_digitChar hsmall) (by omega)
    · have hn : n / 10 * 10 + n % 10 = n := by omega
      have hfront := ih (n / 10) (by omega) (by omega)
      have hdigit := digitValue?_digitChar (Nat.mod_lt n (by decide : 0 < 10))
      rw [Nat.toDigits_of_base_le (by decide) (by omega),
        readDigits_concat hfront hdigit (by omega), hn]

theorem forall_mem_toDigits {P : Char → Prop} (h : ∀ digit < 10, P digit.digitChar) (n : Nat) :
    ∀ c ∈ Nat.toDigits 10 n, P c := by
  induction n using Nat.strongRecOn with
  | ind n ih =>
    by_cases hsmall : n < 10
    · rw [Nat.toDigits_of_lt_base hsmall, List.forall_mem_singleton]
      exact h n hsmall
    · rw [Nat.toDigits_of_base_le (by decide) (by omega), List.forall_mem_append,
        List.forall_mem_singleton]
      exact ⟨ih _ (by omega), h _ (Nat.mod_lt n (by decide))⟩

/-- A number written in decimal is read back. -/
theorem readUnsigned_repr (hlimit : n ≤ limit) :
    readUnsigned 10 limit n.repr.toList = .ok n := by
  have hplus : '+' ∉ Nat.toDigits 10 n := fun hmem =>
    forall_mem_toDigits (P := (· ≠ '+')) (by decide) _ _ hmem rfl
  rw [Nat.toList_repr, readUnsigned_of_plus_notMem Nat.toDigits_ne_nil hplus,
    readDigits_toDigits hlimit]

/-! ## Digits in any radix -/

/-- The number that digits spell behind the value `acc`, the most significant digit first. -/
def digitsFrom (radix acc : Nat) (digits : List Nat) : Nat :=
  digits.foldl (fun n digit => n * radix + digit) acc

/-- The number that a text of digits spells. -/
def numeral? (radix : Nat) (cs : List Char) : Option Nat :=
  if cs = [] then none else (cs.mapM (digitValue? radix)).map (digitsFrom radix 0)

/-- A numeral is a number of digits, read from the left. -/
theorem exists_digits_of_numeral? (h : numeral? radix cs = some n) :
    cs ≠ [] ∧ ∃ digits, cs.mapM (digitValue? radix) = some digits ∧
      digitsFrom radix 0 digits = n := by
  rw [numeral?] at h
  split at h
  · cases h
  · next hne => exact ⟨hne, Option.map_eq_some_iff.mp h⟩

theorem mapM_digitValue?_cons :
    (c :: cs).mapM (digitValue? radix) = some digits ↔
      ∃ digit rest, digitValue? radix c = some digit ∧ cs.mapM (digitValue? radix) = some rest ∧
        digit :: rest = digits := by
  simp [List.mapM_cons, Option.bind_eq_some_iff]

theorem le_digitsFrom (hradix : 0 < radix) : acc ≤ digitsFrom radix acc digits := by
  induction digits generalizing acc with
  | nil => exact Nat.le_refl acc
  | cons digit digits ih =>
    calc acc ≤ acc * radix := Nat.le_mul_of_pos_right acc hradix
      _ ≤ acc * radix + digit := Nat.le_add_right _ _
      _ ≤ digitsFrom radix acc (digit :: digits) := ih

/-- Digits that follow a value add fewer than all numbers of their count. -/
theorem digitsFrom_lt (h : cs.mapM (digitValue? radix) = some digits) :
    digitsFrom radix acc digits < (acc + 1) * radix ^ cs.length := by
  induction cs generalizing acc digits with
  | nil =>
    rw [List.mapM_nil, Option.pure_def, Option.some.injEq] at h
    simp [← h, digitsFrom]
  | cons c cs ih =>
    obtain ⟨digit, rest, hdigit, hrest, rfl⟩ := mapM_digitValue?_cons.mp h
    have hsmall : digit + 1 ≤ radix := by simpa using (Option.filter_eq_some_iff.mp hdigit).2
    calc digitsFrom radix acc (digit :: rest)
        < (acc * radix + digit + 1) * radix ^ cs.length := ih hrest
      _ ≤ ((acc + 1) * radix) * radix ^ cs.length := by
        refine Nat.mul_le_mul_right _ ?_
        rw [Nat.succ_mul]
        omega
      _ = (acc + 1) * radix ^ (c :: cs).length := by
        rw [List.length_cons, Nat.pow_succ', Nat.mul_assoc]

theorem numeral?_lt (h : numeral? radix cs = some n) : n < radix ^ cs.length := by
  obtain ⟨-, digits, hdigits, rfl⟩ := exists_digits_of_numeral? h
  have hlt : digitsFrom radix 0 digits < (0 + 1) * radix ^ cs.length := digitsFrom_lt hdigits
  rwa [Nat.zero_add, Nat.one_mul] at hlt

/-- Digits are among the first characters, so that what holds of them can be looked up. -/
theorem forall_digit {P : Char → Prop}
    (hP : ∀ code < 128, (digitValue? radix (Char.ofNat code)).isSome → P (Char.ofNat code))
    (h : digitValue? radix c = some digit) : P c := by
  have hcode : c.toNat < 128 := by
    have hvalue := (Option.filter_eq_some_iff.mp h).1
    have hle : ∀ {d : Char}, c ≤ d → d.toNat < 128 → c.toNat < 128 := fun hle hd =>
      Nat.lt_of_le_of_lt (UInt32.le_iff_toNat_le.mp hle) hd
    split at hvalue
    · next hc => exact hle hc.2 (by decide)
    · split at hvalue
      · next hc => exact hle hc.2 (by decide)
      · split at hvalue
        · next hc => exact hle hc.2 (by decide)
        · cases hvalue
  have hofNat : Char.ofNat c.toNat = c := Char.ofNat_toNat c
  rw [← hofNat]
  exact hP c.toNat hcode (by rw [hofNat, h]; rfl)

theorem forall_mem_of_numeral? {P : Char → Prop}
    (hP : ∀ code < 128, (digitValue? radix (Char.ofNat code)).isSome → P (Char.ofNat code))
    (h : numeral? radix cs = some n) : ∀ c ∈ cs, P c := by
  have hdigits : ∀ {digits : List Nat}, cs.mapM (digitValue? radix) = some digits →
      ∀ c ∈ cs, P c := by
    clear h
    induction cs with
    | nil => simp
    | cons c cs ih =>
      intro digits h
      obtain ⟨digit, rest, hdigit, hrest, -⟩ := mapM_digitValue?_cons.mp h
      exact List.forall_mem_cons.mpr ⟨forall_digit hP hdigit, ih hrest⟩
  obtain ⟨-, digits, hmap, -⟩ := exists_digits_of_numeral? h
  exact hdigits hmap

/-- A text of digits is read as the number that it spells, up to the limit. -/
theorem readDigits_eq (hradix : 0 < radix) (hacc : acc ≤ limit)
    (h : cs.mapM (digitValue? radix) = some digits) :
    readDigits radix limit acc cs =
      if digitsFrom radix acc digits ≤ limit then .ok (digitsFrom radix acc digits)
      else .error .tooLarge := by
  induction cs generalizing acc digits with
  | nil =>
    rw [List.mapM_nil, Option.pure_def, Option.some.injEq] at h
    rw [← h, digitsFrom, List.foldl_nil, if_pos hacc, readDigits]
  | cons c cs ih =>
    obtain ⟨digit, rest, hdigit, hrest, rfl⟩ := mapM_digitValue?_cons.mp h
    simp only [readDigits, hdigit]
    split
    · next hle => exact ih hle hrest
    · next hgt =>
      have hpast : ¬digitsFrom radix acc (digit :: rest) ≤ limit := fun hle =>
        hgt (Nat.le_trans (le_digitsFrom hradix) hle)
      rw [if_neg hpast]

/-- A numeral is read as the number that it spells. -/
theorem readDigits_numeral (hradix : 0 < radix) (h : numeral? radix cs = some n) :
    readDigits radix limit 0 cs = if n ≤ limit then .ok n else .error .tooLarge := by
  obtain ⟨-, digits, hdigits, rfl⟩ := exists_digits_of_numeral? h
  exact readDigits_eq hradix (Nat.zero_le limit) hdigits

/-! ## Signs -/

/-- The number that a decimal text spells; a sign may stand in front. -/
def signed? : List Char → Option Int
  | '-' :: cs => (numeral? 10 cs).map fun n : Nat => -(n : Int)
  | '+' :: cs => (numeral? 10 cs).map fun n : Nat => (n : Int)
  | cs => (numeral? 10 cs).map fun n : Nat => (n : Int)

/-- What a decimal text is made of: digits, behind a minus sign, a plus sign or no sign. -/
theorem exists_digits_of_signed? {n : Int} (h : signed? cs = some n) : ∃ digits m,
    numeral? 10 digits = some m ∧
      (cs = '-' :: digits ∧ n = -(m : Int) ∨ (cs = digits ∨ cs = '+' :: digits) ∧ n = m) := by
  simp only [signed?] at h
  split at h
  · next digits =>
    obtain ⟨m, hm, rfl⟩ := Option.map_eq_some_iff.mp h
    exact ⟨digits, m, hm, .inl ⟨rfl, rfl⟩⟩
  · next digits =>
    obtain ⟨m, hm, rfl⟩ := Option.map_eq_some_iff.mp h
    exact ⟨digits, m, hm, .inr ⟨.inr rfl, rfl⟩⟩
  · obtain ⟨m, hm, rfl⟩ := Option.map_eq_some_iff.mp h
    exact ⟨cs, m, hm, .inr ⟨.inl rfl, rfl⟩⟩

theorem readUnsigned_plus (hne : cs ≠ []) :
    readUnsigned radix limit ('+' :: cs) = readDigits radix limit 0 cs := by
  cases cs with
  | nil => exact absurd rfl hne
  | cons c cs => rfl

theorem readSignedWord_minus (hne : cs ≠ []) :
    readSignedWord ('-' :: cs) =
      (readDigits 10 0x80000000 0 cs).map fun n => 0 - UInt32.ofNat n := by
  cases cs with
  | nil => exact absurd rfl hne
  | cons c cs => rfl

theorem readSignedWord_of_head? (h : cs.head? ≠ some '-') :
    readSignedWord cs = (readUnsigned 10 0x7FFFFFFF cs).map UInt32.ofNat := by
  rw [readSignedWord]
  rintro digits rfl
  exact h rfl

/-! ## Words of signed numbers -/

/-- Words that are the residue of one number are the same. -/
theorem eq_of_residue {n : Int} {id other : UInt32} (h : (id.toNat : Int) = n % 0x100000000)
    (hother : (other.toNat : Int) = n % 0x100000000) : id = other := by
  rw [← UInt32.toNat_inj]
  omega

theorem residue_ofInt (n : Int) : ((UInt32.ofInt n).toNat : Int) = n % 0x100000000 := by
  rw [UInt32.ofInt, UInt32.toNat_ofNat']
  omega

theorem residue_ofNat (n : Nat) : ((UInt32.ofNat n).toNat : Int) = (n : Int) % 0x100000000 := by
  rw [UInt32.toNat_ofNat']
  omega

theorem residue_neg_ofNat (n : Nat) :
    ((0 - UInt32.ofNat n).toNat : Int) = -(n : Int) % 0x100000000 := by
  rw [UInt32.toNat_sub, UInt32.toNat_ofNat', UInt32.toNat_zero]
  omega

end TypeLang.Text
