/-!
# CRC-32

The 32-bit cyclic redundancy check of ISO 3309, with its bits reversed: the register is shifted
towards its low end, starts with all bits set and is complemented at the end.
-/
namespace TypeLang.Crc32

/-- The generator polynomial with its bits reversed, without the leading term. -/
def generator : UInt32 := 0xEDB88320

/-- One shift of the register; the generator is subtracted when a one falls out. -/
def shift (register : UInt32) : UInt32 :=
  if register &&& 1 = 1 then register >>> 1 ^^^ generator else register >>> 1

/-- Takes one byte into the register. -/
def feed (register : UInt32) (byte : UInt8) : UInt32 :=
  Nat.repeat shift 8 (register ^^^ byte.toUInt32)

def checksum (bytes : List UInt8) : UInt32 := ~~~bytes.foldl feed 0xFFFFFFFF

end TypeLang.Crc32
