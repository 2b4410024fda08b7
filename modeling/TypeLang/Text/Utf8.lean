/-!
# UTF-8

Text as bytes. `decode?` accepts exactly what `encode` writes; `decodeLossy` accepts everything and
puts one replacement character for each longest run of bytes that begins a character and does not
finish it, and for each byte that begins none.
-/
namespace TypeLang.Text.Utf8

def encode (s : String) : List UInt8 := s.toList.flatMap String.utf8EncodeChar

/-- The text of a sequence of bytes, when there is one. -/
def decode? (bytes : List UInt8) : Option String := String.fromUTF8? bytes.toByteArray

theorem toByteArray_encode (s : String) : (encode s).toByteArray = s.toByteArray := by
  rw [encode, ← List.utf8Encode, String.utf8Encode_toList]

@[simp] theorem decode?_encode (s : String) : decode? (encode s) = some s := by
  simp only [decode?, toByteArray_encode, String.fromUTF8?]
  split
  · congr 1
  · next h => simp_all [s.isValidUTF8]

/-- Decoded bytes are those of the text. -/
theorem encode_eq_of_decode? {bytes : List UInt8} {s : String} (h : decode? bytes = some s) :
    encode s = bytes := by
  simp only [decode?, String.fromUTF8?] at h
  split at h
  · simp only [Option.some.injEq] at h
    subst h
    apply List.toByteArray_inj.1
    rw [toByteArray_encode]
    rfl
  · simp at h

/-- Reading accepts exactly what writing produces. -/
theorem decode?_eq_some_iff {bytes : List UInt8} {s : String} :
    decode? bytes = some s ↔ bytes = encode s :=
  ⟨fun h => (encode_eq_of_decode? h).symm, fun h => h ▸ decode?_encode s⟩

/-- A character begun and not finished: its bits so far, the bytes still owed, and the range of the
next one. -/
structure Pending where
  bits : Nat
  owed : Nat
  low : UInt8
  high : UInt8

/-- What a first byte begins: a whole character, one with bytes owed, or none. -/
inductive Start where
  | whole (c : Char)
  | pending (p : Pending)
  | invalid

/-- What a byte at the start of a character begins. The range of the second byte excludes
overlong forms, surrogates and values past the last code point. -/
def start (b : UInt8) : Start :=
  let n := b.toNat
  if n < 0x80 then .whole (Char.ofNat n)
  else if 0xC2 ≤ n ∧ n ≤ 0xDF then .pending ⟨n - 0xC0, 1, 0x80, 0xBF⟩
  else if n = 0xE0 then .pending ⟨0, 2, 0xA0, 0xBF⟩
  else if n = 0xED then .pending ⟨0xD, 2, 0x80, 0x9F⟩
  else if 0xE1 ≤ n ∧ n ≤ 0xEF then .pending ⟨n - 0xE0, 2, 0x80, 0xBF⟩
  else if n = 0xF0 then .pending ⟨0, 3, 0x90, 0xBF⟩
  else if 0xF1 ≤ n ∧ n ≤ 0xF3 then .pending ⟨n - 0xF0, 3, 0x80, 0xBF⟩
  else if n = 0xF4 then .pending ⟨4, 3, 0x80, 0x8F⟩
  else .invalid

/-- What stands for bytes that are no character. -/
def replacement : Char := '\uFFFD'

/-- A decoding under way: the characters read, last first, and the one begun. -/
structure Decoding where
  done : List Char := []
  open? : Option Pending := none

/-- Takes a byte at the start of a character. -/
def Decoding.startWith (done : List Char) (b : UInt8) : Decoding :=
  match start b with
  | .whole c => ⟨c :: done, none⟩
  | .pending p => ⟨done, some p⟩
  | .invalid => ⟨replacement :: done, none⟩

/-- Takes the next byte. -/
def Decoding.step (d : Decoding) (b : UInt8) : Decoding :=
  match d.open? with
  | none => .startWith d.done b
  | some p =>
    if p.low ≤ b ∧ b ≤ p.high then
      let bits := p.bits * 64 + (b.toNat - 0x80)
      if p.owed = 1 then ⟨Char.ofNat bits :: d.done, none⟩
      else ⟨d.done, some ⟨bits, p.owed - 1, 0x80, 0xBF⟩⟩
    else .startWith (replacement :: d.done) b

/-- Decodes any bytes, ill-formed ones to replacement characters. -/
def decodeLossy (bytes : List UInt8) : String :=
  let d := bytes.foldl Decoding.step ⟨[], none⟩
  String.ofList (if d.open?.isSome then replacement :: d.done else d.done).reverse

end TypeLang.Text.Utf8
