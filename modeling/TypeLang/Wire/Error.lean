import TypeLang.Text.Hex

/-!
# Wire errors

Why a value cannot be written, or bytes cannot be read.
-/
namespace TypeLang

abbrev Bytes := List UInt8

/-- Why encoding or decoding fails. -/
inductive WireError where
  | endOfInput
  /-- An id that the expected type has no constructor for. -/
  | unexpectedConstructor (id : UInt32)
  | invalidUtf8
  | unknownType (name : String)
  /-- A method unknown by its name, or by its id in hexadecimal. -/
  | unknownMethod (name : String)
  | typeMismatch (expected : String)
  /-- An ungated field without a value. -/
  | missingField (name : String)
  /-- A payload whose length does not fit three bytes. -/
  | payloadTooLarge (length : Nat)
  deriving DecidableEq, Repr, Inhabited

def WireError.message : WireError → String
  | .endOfInput => "unexpected end of buffer"
  | .unexpectedConstructor id => "unexpected constructor id: " ++ Text.hexConstant id
  | .invalidUtf8 => "string is not valid UTF-8"
  | .unknownType name => "unknown type `" ++ name ++ "`"
  | .unknownMethod name => "unknown method `" ++ name ++ "`"
  | .typeMismatch expected => "value does not match type `" ++ expected ++ "`"
  | .missingField name => "missing value for field `" ++ name ++ "`"
  | .payloadTooLarge length =>
    "payload of " ++ toString length ++ " bytes exceeds the TL length limit"

end TypeLang
