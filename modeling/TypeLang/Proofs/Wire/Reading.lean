import Mathlib.Algebra.Group.Nat.Defs
import TypeLang.Wire.Decode

/-!
# Exact reading

A reader takes a sequence of bytes when it consumes these and nothing behind them, whatever
follows. Taking composes along the readers of the codec, so that a written form is read back by
reading its parts. The primitives take exactly what their writers produce.
-/
namespace TypeLang

/-- The reader consumes `bytes`, and nothing behind them, and returns `a`. -/
def Reader.Takes {α : Type} (r : Reader α) (bytes : Bytes) (a : α) : Prop :=
  ∀ rest, r (bytes ++ rest) = .ok a rest

namespace Wire

variable {α β : Type}

/-! ## Composition -/

theorem takes_pure (a : α) : Reader.Takes (pure a) [] a := fun _ => rfl

/-- Readers that follow each other take their bytes one after the other. -/
theorem takes_bind {r : Reader α} {f : α → Reader β} {bytes more : Bytes} {a : α} {b : β}
    (hr : r.Takes bytes a) (hf : (f a).Takes more b) :
    Reader.Takes (r >>= f) (bytes ++ more) b := by
  intro rest
  have hfirst : (r >>= f) (bytes ++ more ++ rest) = f a (more ++ rest) := by
    change EStateM.bind r f _ = _
    rw [EStateM.bind, List.append_assoc, hr]
  rw [hfirst, hf]

theorem takes_map {r : Reader α} {bytes : Bytes} {a : α} (hr : r.Takes bytes a) (f : α → β) :
    Reader.Takes (do return f (← r)) bytes (f a) := by
  simpa using takes_bind (f := fun x => pure (f x)) hr (takes_pure (f a))

theorem takes_discard {r : Reader α} {bytes : Bytes} {a : α} (hr : r.Takes bytes a) :
    Reader.Takes (discard r) bytes () := by
  intro rest
  change EStateM.map (fun _ => ()) r _ = _
  rw [EStateM.map, hr]

/-- The items of a list are taken one after the other. -/
theorem takes_readItems {item : Reader α} {written : β → Bytes} {result : β → α} {bs : List β}
    (h : ∀ b ∈ bs, item.Takes (written b) (result b)) :
    (readItems item bs.length).Takes (bs.map written).flatten (bs.map result) := by
  induction bs with
  | nil => exact takes_pure []
  | cons b bs ih =>
    have hrest := ih fun c hc => h c (List.mem_cons_of_mem _ hc)
    simp only [List.map_cons, List.flatten_cons, List.length_cons]
    exact takes_bind (h b List.mem_cons_self) (takes_map hrest _)

/-! ## Primitives -/

theorem takes_readBlock {n : Nat} (block : Block n) :
    (readBlock n).Takes block.bytes block := by
  intro rest
  have htake : (block.bytes ++ rest).take n = block.bytes := by
    simp [← block.length_bytes]
  have hdrop : (block.bytes ++ rest).drop n = rest := by
    simp [← block.length_bytes]
  simp only [readBlock, htake, hdrop, block.length_bytes, dite_true]

theorem takes_readBytes (bytes : Bytes) : (readBytes bytes.length).Takes bytes bytes :=
  takes_map (takes_readBlock ⟨bytes, rfl⟩) _

/-- The low bytes of a number give the number as far as they reach. -/
theorem ofLittleEndian_littleEndian (count n : Nat) :
    ofLittleEndian (littleEndian count n) = n % 256 ^ count := by
  induction count generalizing n with
  | zero => simp [littleEndian, ofLittleEndian, Nat.mod_one]
  | succ count ih =>
    simp only [littleEndian, ofLittleEndian, ih, Nat.pow_succ', Nat.mod_mul]
    have : (UInt8.ofNat (n % 256)).toNat = n % 256 := by simp
    rw [this]

theorem takes_readNumber (count n : Nat) :
    (readNumber count).Takes (littleEndian count n) (n % 256 ^ count) := by
  have h := takes_map (takes_readBytes (littleEndian count n)) ofLittleEndian
  rwa [length_littleEndian, ofLittleEndian_littleEndian] at h

theorem takes_readWord (n : UInt32) : readWord.Takes (wordBytes n) n := by
  have h := takes_map (takes_readNumber 4 n.toNat) UInt32.ofNat
  rwa [Nat.mod_eq_of_lt (by simpa using n.toNat_lt), UInt32.ofNat_toNat] at h

/-- Words are told apart by their bytes. -/
theorem wordBytes_inj {n k : UInt32} : wordBytes n = wordBytes k ↔ n = k := by
  refine ⟨fun h => ?_, fun h => h ▸ rfl⟩
  have hnumbers := congrArg ofLittleEndian h
  rw [wordBytes, wordBytes, ofLittleEndian_littleEndian, ofLittleEndian_littleEndian,
    Nat.mod_eq_of_lt (show n.toNat < 256 ^ 4 from n.toNat_lt),
    Nat.mod_eq_of_lt (show k.toNat < 256 ^ 4 from k.toNat_lt)] at hnumbers
  exact UInt32.toNat_inj.mp hnumbers

theorem takes_readLong (n : UInt64) : readLong.Takes (longBytes n) n := by
  have h := takes_map (takes_readNumber 8 n.toNat) UInt64.ofNat
  rwa [Nat.mod_eq_of_lt (by simpa using n.toNat_lt), UInt64.ofNat_toNat] at h

/-- A truth value is read back. -/
theorem takes_readBool (b : Bool) : readBool.Takes (boolBytes b) b := by
  have h := takes_readWord (if b then trueId else falseId)
  rw [← List.append_nil (boolBytes b)]
  refine takes_bind h ?_
  cases b
  · exact takes_pure false
  · exact takes_pure true

/-- The count of a vector header is exact below `2 ^ 32`. -/
theorem takes_readVectorHeader {n : Nat} (hn : n < 2 ^ 32) :
    readVectorHeader.Takes (vectorHeader n) n := by
  refine takes_bind (takes_readWord vectorId) ?_
  have h := takes_readNumber 4 n
  rwa [Nat.mod_eq_of_lt (show n < 256 ^ 4 by omega)] at h

/-! ## Payloads -/

/-- Every byte but the mark is a header of its own. -/
theorem takes_shortHeader {n : Nat} (hn : n < 256) (hmark : n ≠ longMark.toNat) :
    readPayloadHeader.Takes [UInt8.ofNat n] (n, 1) := by
  have hfirst := takes_readNumber 1 n
  have hheader : littleEndian 1 n = [UInt8.ofNat n] := by
    rw [littleEndian, littleEndian, Nat.mod_eq_of_lt hn]
  rw [hheader, Nat.mod_eq_of_lt (show n < 256 ^ 1 from hn)] at hfirst
  rw [← List.append_nil [UInt8.ofNat n]]
  refine takes_bind hfirst ?_
  rw [if_neg hmark]
  exact takes_pure _

theorem takes_longHeader {n : Nat} (hn : n ≤ payloadLimit) :
    readPayloadHeader.Takes (longMark :: littleEndian 3 n) (n, 4) := by
  simp only [payloadLimit] at hn
  have hfirst := takes_readNumber 1 longMark.toNat
  have hlength := takes_map (takes_readNumber 3 n) fun length => (length, 4)
  rw [Nat.mod_eq_of_lt (show n < 256 ^ 3 by omega)] at hlength
  exact takes_bind hfirst hlength

/-- The length of a payload as written in front of it. -/
def payloadHeader (length : Nat) : Bytes :=
  if length ≤ shortLimit then [UInt8.ofNat length] else longMark :: littleEndian 3 length

/-- A payload as written: the length, the data, and zeros up to a multiple of four. -/
def payloadLayout (data : Bytes) : Bytes :=
  payloadHeader data.length ++ (data ++
    List.replicate (padding ((payloadHeader data.length).length + data.length)) 0)

/-- A length that fits goes behind the buffer, and the bytes it takes are counted. -/
theorem appendHeader_of_le {length : Nat} (h : length ≤ payloadLimit) (buffer : Bytes) :
    appendHeader length buffer =
      .ok (payloadHeader length).length (buffer ++ payloadHeader length) := by
  by_cases hshort : length ≤ shortLimit
  · rw [appendHeader, payloadHeader, if_pos hshort, if_pos hshort]
    rfl
  · rw [appendHeader, payloadHeader, if_neg hshort, if_neg hshort, if_pos h, List.length_cons,
      length_littleEndian]
    rfl

/-- A length that does not fit is refused before anything is written. -/
theorem appendHeader_of_lt {length : Nat} (h : payloadLimit < length) (buffer : Bytes) :
    appendHeader length buffer = .error (.payloadTooLarge length) buffer := by
  have hlong : ¬length ≤ payloadLimit := Nat.not_le.mpr h
  have hshort : ¬length ≤ shortLimit := fun hle => hlong (Nat.le_trans hle (by decide))
  rw [appendHeader, if_neg hshort, if_neg hlong]
  rfl

/-- A payload whose length fits three bytes goes behind the buffer. -/
theorem appendPayload_of_le {data : Bytes} (h : data.length ≤ payloadLimit) (buffer : Bytes) :
    appendPayload data buffer = .ok () (buffer ++ payloadLayout data) := by
  change EStateM.bind (appendHeader data.length) _ buffer = _
  rw [EStateM.bind, appendHeader_of_le h, payloadLayout, ← List.append_assoc, ← List.append_assoc]
  rfl

/-- A longer one is refused and the buffer stays as it is. -/
theorem appendPayload_of_lt {data : Bytes} (h : payloadLimit < data.length) (buffer : Bytes) :
    appendPayload data buffer = .error (.payloadTooLarge data.length) buffer := by
  change EStateM.bind (appendHeader data.length) _ buffer = _
  rw [EStateM.bind, appendHeader_of_lt h]

/-- A payload is written exactly when its length fits three bytes, as its layout. -/
theorem payloadBytes_eq_ok_iff {data bytes : Bytes} :
    payloadBytes data = .ok bytes ↔ data.length ≤ payloadLimit ∧ payloadLayout data = bytes := by
  by_cases h : data.length ≤ payloadLimit
  · rw [payloadBytes, appendPayload_of_le h, List.nil_append, Except.ok.injEq]
    exact (and_iff_right h).symm
  · rw [payloadBytes, appendPayload_of_lt (Nat.not_le.mp h)]
    exact ⟨nofun, fun hfits => absurd hfits.1 h⟩

theorem takes_readPayloadHeader {n : Nat} (hn : n ≤ payloadLimit) :
    readPayloadHeader.Takes (payloadHeader n) (n, (payloadHeader n).length) := by
  by_cases hshort : n ≤ shortLimit
  · have hheader : payloadHeader n = [UInt8.ofNat n] := if_pos hshort
    simp only [shortLimit] at hshort
    rw [hheader]
    exact takes_shortHeader (by omega) (show n ≠ 254 by omega)
  · have hheader : payloadHeader n = longMark :: littleEndian 3 n := if_neg hshort
    rw [hheader, List.length_cons, length_littleEndian]
    exact takes_longHeader hn

/-- A payload that can be written is read back. -/
theorem takes_readPayload {data bytes : Bytes} (h : payloadBytes data = .ok bytes) :
    readPayload.Takes bytes data := by
  obtain ⟨hfits, rfl⟩ := payloadBytes_eq_ok_iff.mp h
  refine takes_bind (takes_readPayloadHeader hfits) ?_
  refine takes_bind (takes_readBytes data) ?_
  have hpadding := takes_readBytes
    (List.replicate (padding ((payloadHeader data.length).length + data.length)) 0)
  rw [List.length_replicate] at hpadding
  rw [← List.append_nil (List.replicate _ _)]
  exact takes_bind (takes_discard hpadding) (takes_pure data)

theorem takes_readString {s : String} {bytes : Bytes}
    (h : payloadBytes (Text.Utf8.encode s) = .ok bytes) : readString.Takes bytes s := by
  rw [← List.append_nil bytes]
  refine takes_bind (takes_readPayload h) ?_
  rw [Text.Utf8.decode?_encode]
  exact takes_pure s

end Wire

end TypeLang
