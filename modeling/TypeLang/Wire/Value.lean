import TypeLang.Wire.Error

/-!
# Wire values

What can be put on the wire: words and numbers, text and bytes, vectors, and objects, which name
their constructor by its id. Doubles are their bits.
-/
namespace TypeLang

/-- A sequence of exactly `n` bytes. -/
structure Block (n : Nat) where
  bytes : Bytes
  length_bytes : bytes.length = n
  deriving DecidableEq, Repr

/-- A value. The fields of an object follow its constructor without the flags words, which are
computed from what is present. An absent gated field is `none`; a mark that is set is
`some (.bool true)`. -/
inductive Value where
  | bool (value : Bool)
  | int (value : UInt32)
  | long (value : UInt64)
  | double (bits : UInt64)
  | string (value : String)
  | bytes (value : Bytes)
  | int128 (value : Block 16)
  | int256 (value : Block 32)
  | vector (items : List Value)
  | object (id : UInt32) (fields : List (String × Option Value))
  deriving Repr

instance : Inhabited Value := ⟨.bool false⟩

/-- A constructor or a request, by its id, with its fields. -/
structure Object where
  id : UInt32
  fields : List (String × Option Value)
  deriving Repr, Inhabited

namespace Object

/-- The object without fields. -/
def empty (id : UInt32) : Object := ⟨id, []⟩

/-- Appends a present field. -/
def present (o : Object) (name : String) (value : Value) : Object :=
  { o with fields := o.fields ++ [(name, some value)] }

/-- Appends an absent field. -/
def absent (o : Object) (name : String) : Object :=
  { o with fields := o.fields ++ [(name, none)] }

/-- The value of a field; the first entry of the name counts, whether present or not. -/
def field? (o : Object) (name : String) : Option Value := (o.fields.lookup name).join

/-- The object as a value. -/
def toValue (o : Object) : Value := .object o.id o.fields

end Object

end TypeLang
