import TypeLang.Proofs.Wire.Consumption
import TypeLang.Proofs.Wire.Finding

/-!
# Layouts of payloads

A payload on the wire is a header with its length, its data, and padding up to a multiple of four.
Lengths up to 253 have a header of one byte, and all lengths of three bytes have one of four. The
writer chooses the shorter header and pads with zeros. The reader takes every layout, whatever the
padding holds, and one form besides that is no layout: the byte `0xFF` as the header of 255 bytes.
-/
namespace TypeLang.Wire

/-! ## The format -/

/-- The headers of a length. -/
inductive IsHeader (length : Nat) : Bytes → Prop
  | short (h : length ≤ 253) : IsHeader length [UInt8.ofNat length]
  | long (h : length ≤ 0xFFFFFF) : IsHeader length (0xFE :: littleEndian 3 length)

/-- Data behind a header, with the padding up to the next multiple of four. -/
def IsPadded (header data layout : Bytes) : Prop :=
  ∃ pad, layout = header ++ (data ++ pad) ∧ pad.length < 4 ∧ 4 ∣ layout.length

/-- The layouts of a payload. -/
def IsLayout (data layout : Bytes) : Prop :=
  ∃ header, IsHeader data.length header ∧ IsPadded header data layout

variable {n length count : Nat} {input rest data layout header : Bytes}

/-- Padding up to the next multiple of four has one length. -/
theorem isPadded_iff : IsPadded header data layout ↔ ∃ pad : Bytes,
    layout = header ++ (data ++ pad) ∧ pad.length = padding (header.length + data.length) := by
  refine exists_congr fun pad => and_congr_right fun hlayout => ?_
  rw [hlayout, List.length_append, List.length_append, padding]
  omega

/-! ## Blocks and numbers -/

/-- A block is read exactly from its bytes. -/
theorem readBlock_eq_ok_iff {block : Block n} :
    readBlock n input = .ok block rest ↔ input = block.bytes ++ rest := by
  constructor
  · intro h
    simp only [readBlock] at h
    split at h
    · cases h
      exact (List.take_append_drop n input).symm
    · cases h
  · rintro rfl
    exact takes_readBlock block rest

/-- Bytes are read exactly from a front of their number. -/
theorem readBytes_eq_ok_iff :
    readBytes n input = .ok data rest ↔ input = data ++ rest ∧ data.length = n := by
  constructor
  · intro h
    obtain ⟨block, mid, hread, hpure⟩ := bind_eq_ok_iff.mp h
    cases hpure
    exact ⟨readBlock_eq_ok_iff.mp hread, block.length_bytes⟩
  · rintro ⟨rfl, rfl⟩
    exact takes_readBytes data rest

/-- Bytes are those of the number that they give. -/
theorem littleEndian_ofLittleEndian (bytes : Bytes) :
    littleEndian bytes.length (ofLittleEndian bytes) = bytes := by
  induction bytes with
  | nil => rfl
  | cons b bytes ih =>
    have hb : b.toNat < 256 := b.toNat_lt
    have hlow : (b.toNat + 256 * ofLittleEndian bytes) % 256 = b.toNat := by omega
    have hhigh : (b.toNat + 256 * ofLittleEndian bytes) / 256 = ofLittleEndian bytes := by omega
    rw [ofLittleEndian, List.length_cons, littleEndian, hlow, hhigh, ih, UInt8.ofNat_toNat]

/-- A number that is read fits its bytes, and these are the only ones it is read from. -/
theorem readNumber_eq_ok_iff :
    readNumber count input = .ok n rest ↔
      n < 256 ^ count ∧ input = littleEndian count n ++ rest := by
  constructor
  · intro h
    obtain ⟨bytes, mid, hread, hpure⟩ := bind_eq_ok_iff.mp h
    cases hpure
    obtain ⟨rfl, rfl⟩ := readBytes_eq_ok_iff.mp hread
    exact ⟨ofLittleEndian_lt bytes, by rw [littleEndian_ofLittleEndian]⟩
  · rintro ⟨hn, rfl⟩
    have h := takes_readNumber count n rest
    rwa [Nat.mod_eq_of_lt hn] at h

/-! ## Headers -/

/-- A header that is read is one of the headers of the length, or the last byte there is. -/
theorem exists_header_of_read (hread : readPayloadHeader input = .ok (length, count) rest) :
    ∃ header, input = header ++ rest ∧ header.length = count ∧
      (IsHeader length header ∨ length = 255 ∧ header = [0xFF]) := by
  obtain ⟨first, mid, hfirst, h⟩ := bind_eq_ok_iff.mp hread
  obtain ⟨hbyte, rfl⟩ := readNumber_eq_ok_iff.mp hfirst
  split at h
  · next hmark =>
    obtain ⟨value, mid, hread, hpure⟩ := bind_eq_ok_iff.mp h
    cases hpure
    obtain ⟨hlength, rfl⟩ := readNumber_eq_ok_iff.mp hread
    subst hmark
    refine ⟨0xFE :: littleEndian 3 length, rfl, ?_, .inl (.long (by omega))⟩
    rw [List.length_cons, length_littleEndian]
  · next hmark =>
    cases h
    have hdigit : littleEndian 1 length = [UInt8.ofNat length] := by
      rw [littleEndian, littleEndian, Nat.mod_eq_of_lt (by omega)]
    rw [hdigit]
    refine ⟨_, rfl, rfl, ?_⟩
    -- The byte is no mark, so that it is one of the short lengths or the last byte there is.
    have hne : length ≠ 254 := hmark
    by_cases hshort : length ≤ 253
    · exact .inl (.short hshort)
    · have hlast : length = 255 := by omega
      subst hlast
      exact .inr ⟨rfl, rfl⟩

/-- Every header is read as its length and its size, and so is the last byte there is. -/
theorem takes_header (h : IsHeader length header ∨ length = 255 ∧ header = [0xFF]) :
    readPayloadHeader.Takes header (length, header.length) := by
  rcases h with hheader | ⟨rfl, rfl⟩
  · cases hheader with
    | short hlength => exact takes_shortHeader (by omega) (show length ≠ 254 by omega)
    | long hlength =>
      rw [List.length_cons, length_littleEndian]
      exact takes_longHeader hlength
  · exact takes_shortHeader (show 255 < 256 by decide) (by decide)

/-! ## Reading -/

/-- A payload is read exactly from padded data behind one of these headers. -/
theorem readPayload_eq_ok_iff : readPayload input = .ok data rest ↔
    ∃ header layout, input = layout ++ rest ∧ IsPadded header data layout ∧
      (IsHeader data.length header ∨ data.length = 255 ∧ header = [0xFF]) := by
  constructor
  · intro h
    obtain ⟨⟨length, count⟩, afterHeader, hheader, hrest⟩ := bind_eq_ok_iff.mp h
    obtain ⟨header, rfl, rfl, hread⟩ := exists_header_of_read hheader
    obtain ⟨found, afterData, hdata, hend⟩ := bind_eq_ok_iff.mp hrest
    obtain ⟨rfl, rfl⟩ := readBytes_eq_ok_iff.mp hdata
    obtain ⟨_, afterPad, hdiscard, hpure⟩ := bind_eq_ok_iff.mp hend
    cases hpure
    obtain ⟨pad, hpad⟩ := discard_eq_ok_iff.mp hdiscard
    obtain ⟨rfl, hpadding⟩ := readBytes_eq_ok_iff.mp hpad
    exact ⟨header, header ++ (data ++ pad), by simp, isPadded_iff.mpr ⟨pad, rfl, hpadding⟩, hread⟩
  · rintro ⟨header, layout, rfl, hpadded, hheader⟩
    obtain ⟨pad, rfl, hpadding⟩ := isPadded_iff.mp hpadded
    have htakes : readPayload.Takes (header ++ (data ++ pad)) data := by
      have hpad : (readBytes (padding (header.length + data.length))).Takes pad pad :=
        hpadding ▸ takes_readBytes pad
      refine takes_bind (takes_header hheader) (takes_bind (takes_readBytes data) ?_)
      rw [← List.append_nil pad]
      exact takes_bind (takes_discard hpad) (takes_pure data)
    exact htakes rest

/-! ## Writing -/

theorem isHeader_payloadHeader (h : length ≤ payloadLimit) :
    IsHeader length (payloadHeader length) := by
  rw [payloadHeader]
  split
  · next hshort => exact .short hshort
  · exact .long h

/-- The header that is written is the shortest. -/
theorem length_payloadHeader_le (h : IsHeader length header) :
    (payloadHeader length).length ≤ header.length := by
  cases h with
  | short hshort =>
    have hwritten : payloadHeader length = [UInt8.ofNat length] := if_pos hshort
    exact Nat.le_of_eq (congrArg List.length hwritten)
  | long _ =>
    rw [payloadHeader]
    split
    · exact Nat.succ_le_succ (Nat.zero_le _)
    · exact Nat.le_refl _

/-- A length with a header fits three bytes. -/
theorem IsHeader.length_le (h : IsHeader length header) : length ≤ 0xFFFFFF := by
  cases h with
  | short hshort => omega
  | long hlong => exact hlong

/-- No header starts with the last byte there is. -/
theorem IsHeader.head?_ne (h : IsHeader length header) : header.head? ≠ some 0xFF := by
  cases h with
  | short hshort =>
    intro hfirst
    have hbyte := congrArg UInt8.toNat (Option.some.inj hfirst)
    rw [UInt8.toNat_ofNat', Nat.mod_eq_of_lt (by omega)] at hbyte
    exact absurd hbyte (show length ≠ 255 by omega)
  | long _ => exact fun hfirst => absurd (Option.some.inj hfirst) (by decide)

/-- A payload is read in every layout that it has, and the reader goes on behind it. Besides it is
read in one form that is none of the layouts: behind the byte `0xFF` as the header of 255 bytes. It
is written behind a buffer in the layout with the shortest header and zeros as padding, and without
a layout it is refused and the buffer stays as it is. -/
theorem readPayload_iff_layout (input data rest buffer : Bytes) :
    (readPayload input = .ok data rest ↔
      ∃ layout, input = layout ++ rest ∧
        (IsLayout data layout ∨ data.length = 255 ∧ IsPadded [0xFF] data layout)) ∧
    (∀ layout, IsLayout data layout → layout.head? ≠ some 0xFF) ∧
    (data.length ≤ 0xFFFFFF → ∃ header pad, IsHeader data.length header ∧
      (∀ other, IsHeader data.length other → header.length ≤ other.length) ∧
      IsPadded header data (header ++ (data ++ pad)) ∧ (∀ b ∈ pad, b = 0) ∧
      appendPayload data buffer = .ok () (buffer ++ (header ++ (data ++ pad)))) ∧
    (0xFFFFFF < data.length → (∀ layout, ¬IsLayout data layout) ∧
      appendPayload data buffer = .error (.payloadTooLarge data.length) buffer) := by
  refine ⟨?_, ?_, fun h => ?_, fun h => ⟨?_, ?_⟩⟩
  · rw [readPayload_eq_ok_iff]
    constructor
    · rintro ⟨header, layout, hinput, hpadded, hheader | ⟨hlength, rfl⟩⟩
      · exact ⟨layout, hinput, .inl ⟨header, hheader, hpadded⟩⟩
      · exact ⟨layout, hinput, .inr ⟨hlength, hpadded⟩⟩
    · rintro ⟨layout, hinput, ⟨header, hheader, hpadded⟩ | ⟨hlength, hpadded⟩⟩
      · exact ⟨header, layout, hinput, hpadded, .inl hheader⟩
      · exact ⟨[0xFF], layout, hinput, hpadded, .inr ⟨hlength, rfl⟩⟩
  · rintro layout ⟨header, hheader, pad, rfl, -⟩
    have hne := hheader.head?_ne
    cases hheader <;> exact hne
  · refine ⟨payloadHeader data.length, _, isHeader_payloadHeader h,
      fun _ => length_payloadHeader_le, ?_, ?_, appendPayload_of_le h buffer⟩
    · exact isPadded_iff.mpr ⟨_, rfl, List.length_replicate⟩
    · exact fun b hb => List.eq_of_mem_replicate hb
  · rintro layout ⟨header, hheader, -⟩
    exact absurd hheader.length_le (Nat.not_le.mpr h)
  · exact appendPayload_of_lt h buffer

/-- The byte `0xFF` and 255 bytes are read as these, and are no layout of them: written, the bytes
have a header of four bytes. -/
theorem readPayload_iff_layout_lastByte :
    (List.replicate 255 7 : Bytes).length ≤ 0xFFFFFF ∧
      readPayload (0xFF :: List.replicate 255 7) = .ok (List.replicate 255 7) [] ∧
      ¬IsLayout (List.replicate 255 7) (0xFF :: List.replicate 255 7) ∧
      ∃ pad, appendPayload (List.replicate 255 7) [] =
        .ok () ([0xFE, 0xFF, 0, 0] ++ (List.replicate 255 7 ++ pad)) := by
  have hlength : (List.replicate 255 7 : Bytes).length = 255 := List.length_replicate
  have hfits : (List.replicate 255 7 : Bytes).length ≤ 0xFFFFFF := by omega
  have hpadded : IsPadded [0xFF] (List.replicate 255 7) (0xFF :: List.replicate 255 7) :=
    ⟨[], by rw [List.append_nil, List.singleton_append], by decide, by
      rw [List.length_cons, hlength]
      decide⟩
  obtain ⟨hread, hlayout, hwrite, -⟩ :=
    readPayload_iff_layout (0xFF :: List.replicate 255 7) (List.replicate 255 7) [] []
  obtain ⟨header, pad, hheader, -, -, -, happend⟩ := hwrite hfits
  refine ⟨hfits, hread.mpr ⟨_, (List.append_nil _).symm, .inr ⟨hlength, hpadded⟩⟩,
    fun h => hlayout _ h rfl, pad, ?_⟩
  rw [hlength] at hheader
  cases hheader with
  | short hshort => exact absurd hshort (by decide)
  | long _ => exact happend

end TypeLang.Wire
