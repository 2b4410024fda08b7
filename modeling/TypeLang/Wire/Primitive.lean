import TypeLang.Text.Utf8
import TypeLang.Wire.Value

/-!
# Wire primitives

Words and numbers are little-endian, truth values are the ids of their two constructors, and a
vector starts with its own id and its length. A payload, of bytes or of text, is its length, its
data, and zeros up to a multiple of four; lengths up to 253 take one byte, longer ones the byte
`0xFE` and three bytes. Readers consume bytes from the front, and a reader that fails leaves what
it did not consume. Payloads are written behind a buffer, since a length may be refused.
-/
namespace TypeLang

/-- Reads from the front of a sequence of bytes. -/
abbrev Reader := EStateM WireError Bytes

/-- Writes behind the bytes of a buffer. -/
abbrev Writer := EStateM WireError Bytes

namespace Wire

/-- The id of the constructor `boolTrue`. -/
def trueId : UInt32 := 0x997275B5

/-- The id of the constructor `boolFalse`. -/
def falseId : UInt32 := 0xBC799737

/-- The id that a vector starts with. -/
def vectorId : UInt32 := 0x1CB5C415

/-! ## Little-endian numbers -/

/-- The `count` low bytes of a number, lowest first. -/
def littleEndian : Nat → Nat → Bytes
  | 0, _ => []
  | count + 1, n => UInt8.ofNat (n % 256) :: littleEndian count (n / 256)

@[simp] theorem length_littleEndian (count n : Nat) : (littleEndian count n).length = count := by
  induction count generalizing n with
  | zero => rfl
  | succ count ih => simp [littleEndian, ih]

/-- The number whose bytes these are, lowest first. -/
def ofLittleEndian : Bytes → Nat
  | [] => 0
  | b :: bs => b.toNat + 256 * ofLittleEndian bs

def wordBytes (n : UInt32) : Bytes := littleEndian 4 n.toNat

def longBytes (n : UInt64) : Bytes := littleEndian 8 n.toNat

def boolBytes (b : Bool) : Bytes := wordBytes (if b then trueId else falseId)

/-- What a vector of a length starts with. The length is written modulo 2^32. -/
def vectorHeader (length : Nat) : Bytes := wordBytes vectorId ++ littleEndian 4 length

/-! ## Payloads -/

def shortLimit : Nat := 253

/-- The first byte of a payload whose length takes three more. -/
def longMark : UInt8 := 0xFE

def payloadLimit : Nat := 0xFFFFFF

/-- The number of zeros after `written` bytes. -/
def padding (written : Nat) : Nat := (4 - written % 4) % 4

def appendBytes (bytes : Bytes) : Writer Unit := modify (· ++ bytes)

/-- Writes the length of a payload and returns the number of bytes it took. -/
def appendHeader (length : Nat) : Writer Nat :=
  if length ≤ shortLimit then do
    appendBytes [UInt8.ofNat length]
    return 1
  else if length ≤ payloadLimit then do
    appendBytes (longMark :: littleEndian 3 length)
    return 4
  else throw (.payloadTooLarge length)

/-- Writes a payload. A length that is too large is refused before anything is written. -/
def appendPayload (data : Bytes) : Writer Unit := do
  let header ← appendHeader data.length
  appendBytes data
  appendBytes (List.replicate (padding (header + data.length)) 0)

/-- A payload as written to an empty buffer. -/
def payloadBytes (data : Bytes) : Except WireError Bytes :=
  match appendPayload data [] with
  | .ok _ bytes => .ok bytes
  | .error e _ => .error e

/-! ## Reading -/

/-- Reads exactly `n` bytes, and consumes nothing when there are fewer. -/
def readBlock (n : Nat) : Reader (Block n) := fun input =>
  if h : (input.take n).length = n then .ok ⟨input.take n, h⟩ (input.drop n)
  else .error .endOfInput input

def readBytes (n : Nat) : Reader Bytes := do return (← readBlock n).bytes

/-- Reads a little-endian number of `count` bytes. -/
def readNumber (count : Nat) : Reader Nat := do return ofLittleEndian (← readBytes count)

def readWord : Reader UInt32 := do return .ofNat (← readNumber 4)

def readLong : Reader UInt64 := do return .ofNat (← readNumber 8)

def readBool : Reader Bool := do
  let id ← readWord
  if id = trueId then return true
  else if id = falseId then return false
  else throw (.unexpectedConstructor id)

/-- Reads the length of a payload, with the number of bytes it took. -/
def readPayloadHeader : Reader (Nat × Nat) := do
  let first ← readNumber 1
  if first = longMark.toNat then return (← readNumber 3, 4) else return (first, 1)

/-- Reads a payload. The zeros behind the data are not looked at. -/
def readPayload : Reader Bytes := do
  let (length, header) ← readPayloadHeader
  let data ← readBytes length
  discard (readBytes (padding (header + length)))
  return data

def readString : Reader String := do
  match Text.Utf8.decode? (← readPayload) with
  | some s => return s
  | none => throw .invalidUtf8

/-- Reads the start of a vector and returns its length. -/
def readVectorHeader : Reader Nat := do
  let id ← readWord
  if id = vectorId then readNumber 4 else throw (.unexpectedConstructor id)

end Wire

end TypeLang
