import Mathlib.Data.List.Range
import TypeLang.Crc32

/-!
# Division by the generator

The check value by its definition: the bits of the input are divided by the generator polynomial in
a register that is shifted towards its high end. The register of the library is the mirror image of
that one, and takes the bits of a byte at once.
-/
namespace TypeLang.Crc32

/-- The generator polynomial, without the leading term. -/
def polynomial : BitVec 32 := 0x04C11DB7#32

/-- One step of the division. The highest bit falls out against the next bit of the input; when
they differ the generator is subtracted. -/
def divide (register : BitVec 32) (bit : Bool) : BitVec 32 :=
  if register.msb ^^ bit then register <<< 1 ^^^ polynomial else register <<< 1

/-- The bits of a byte, the most significant first. -/
def bitsOf (byte : BitVec 8) : List Bool := (List.range 8).map byte.getMsbD

/-- The register behind a sequence of bytes, each with its bits reversed. -/
def remainder (bytes : List UInt8) : BitVec 32 :=
  (bytes.flatMap fun byte => bitsOf byte.toBitVec.reverse).foldl divide 0xFFFFFFFF#32

/-! ## The mirror image -/

/-- The step of the division in the mirror image of the register. -/
def divideLow (register : BitVec 32) (bit : Bool) : BitVec 32 :=
  if register.getLsbD 0 ^^ bit then register >>> 1 ^^^ generator.toBitVec else register >>> 1

theorem reverse_xor (x y : BitVec 32) : (x ^^^ y).reverse = x.reverse ^^^ y.reverse := by
  ext i hi
  simp [BitVec.getElem_reverse]

theorem reverse_reverse (x : BitVec 32) : x.reverse.reverse = x := by
  ext i hi
  rw [BitVec.getElem_reverse, BitVec.getMsbD_reverse, BitVec.getLsbD_eq_getElem]

theorem reverse_ushiftRight_one (x : BitVec 32) : (x >>> 1).reverse = x.reverse <<< 1 := by
  apply BitVec.eq_of_getMsbD_eq
  intro i hi
  rw [BitVec.getMsbD_reverse, BitVec.getLsbD_ushiftRight, BitVec.getMsbD_shiftLeft,
    BitVec.getMsbD_reverse, Nat.add_comm]

theorem reverse_divideLow (register : BitVec 32) (bit : Bool) :
    (divideLow register bit).reverse = divide register.reverse bit := by
  have hgenerator : generator.toBitVec.reverse = polynomial := by decide +kernel
  rw [divideLow, divide, BitVec.msb_reverse, apply_ite BitVec.reverse, reverse_xor,
    reverse_ushiftRight_one, hgenerator]

theorem reverse_foldl_divideLow (bits : List Bool) (register : BitVec 32) :
    (bits.foldl divideLow register).reverse = bits.foldl divide register.reverse := by
  induction bits generalizing register with
  | nil => rfl
  | cons bit bits ih => rw [List.foldl_cons, ih, reverse_divideLow, List.foldl_cons]

/-! ## Bytes at once -/

theorem toBitVec_shift (register : UInt32) :
    (shift register).toBitVec = divideLow register.toBitVec false := by
  have hbit : register &&& 1 = 1 ↔ register.toBitVec.getLsbD 0 := by
    rw [← UInt32.toBitVec_inj, UInt32.toBitVec_and, UInt32.toBitVec_one,
      BitVec.and_one_eq_setWidth_ofBool_getLsbD]
    cases register.toBitVec.getLsbD 0 <;> decide
  simp only [shift, divideLow, Bool.xor_false, hbit]
  split
  · rw [UInt32.toBitVec_xor, UInt32.toBitVec_shiftRight]
    rfl
  · rw [UInt32.toBitVec_shiftRight]
    rfl

/-- A step on bits that are already in the register: the lowest of them goes into the division, the
others move up. -/
theorem divideLow_xor (register bits : BitVec 32) :
    divideLow (register ^^^ bits) false = divideLow register (bits.getLsbD 0) ^^^ bits >>> 1 := by
  simp only [divideLow, BitVec.getLsbD_xor, Bool.xor_false, BitVec.ushiftRight_xor_distrib]
  split
  · rw [BitVec.xor_assoc, BitVec.xor_assoc, BitVec.xor_comm (bits >>> 1)]
  · rfl

/-- Steps on bits that are in the register at once divide these bits one by one. -/
theorem repeat_shift (register bits : BitVec 32) (start : UInt32)
    (hstart : start.toBitVec = register ^^^ bits) (n : Nat) :
    (Nat.repeat shift n start).toBitVec =
      ((List.range n).map bits.getLsbD).foldl divideLow register ^^^ bits >>> n := by
  induction n with
  | zero => simpa [Nat.repeat] using hstart
  | succ n ih =>
    -- The steps before have moved the next bit down to the lowest place.
    have hbit : (bits >>> n).getLsbD 0 = bits.getLsbD n := by simp
    rw [Nat.repeat, toBitVec_shift, ih, divideLow_xor, hbit, List.range_succ, List.map_append,
      List.foldl_append, BitVec.shiftRight_add]
    rfl

/-- Feeding a byte is dividing by its bits, the lowest one first. -/
theorem toBitVec_feed (register : UInt32) (byte : UInt8) :
    (feed register byte).toBitVec =
      (bitsOf byte.toBitVec.reverse).foldl divideLow register.toBitVec := by
  have hbits : (List.range 8).map (byte.toBitVec.setWidth 32).getLsbD =
      bitsOf byte.toBitVec.reverse := by
    refine List.map_congr_left fun i hi => ?_
    have hi : i < 8 := List.mem_range.mp hi
    rw [BitVec.getMsbD_reverse, BitVec.getLsbD_setWidth, decide_eq_true (by omega), Bool.true_and]
  have hzero : byte.toBitVec.setWidth 32 >>> 8 = 0#32 := by
    apply BitVec.eq_of_toNat_eq
    have := byte.toNat_lt
    simp [Nat.shiftRight_eq_div_pow]
    omega
  have hstart : (register ^^^ byte.toUInt32).toBitVec =
      register.toBitVec ^^^ byte.toBitVec.setWidth 32 := by simp
  rw [feed, repeat_shift _ _ _ hstart, hbits, hzero, BitVec.xor_zero]

/-- The register of the division, seen in its mirror. -/
theorem reverse_foldl_feed (bytes : List UInt8) (register : UInt32) :
    (bytes.foldl feed register).toBitVec.reverse =
      (bytes.flatMap fun byte => bitsOf byte.toBitVec.reverse).foldl divide
        register.toBitVec.reverse := by
  induction bytes generalizing register with
  | nil => rfl
  | cons byte bytes ih =>
    rw [List.foldl_cons, ih, toBitVec_feed, reverse_foldl_divideLow, List.flatMap_cons,
      List.foldl_append]

/-- The check value is the mirror image of what is left by the division, complemented. -/
theorem toBitVec_checksum (bytes : List UInt8) :
    (checksum bytes).toBitVec = ~~~(remainder bytes).reverse := by
  have hstart : (0xFFFFFFFF : UInt32).toBitVec.reverse = 0xFFFFFFFF#32 := by decide +kernel
  rw [checksum, remainder, UInt32.toBitVec_not, ← hstart, ← reverse_foldl_feed, reverse_reverse]

/-- The check value by which implementations are told. -/
example : checksum "123456789".toUTF8.toList = 0xCBF43926 := by decide +kernel

end TypeLang.Crc32
