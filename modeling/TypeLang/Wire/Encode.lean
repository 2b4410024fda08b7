import TypeLang.Model.Basic
import TypeLang.Wire.Primitive

/-!
# Encoding

A value is written as a target type. Pointers are transparent; every object is written with the id
of its constructor in front, and its flags words are computed from the fields that are present.
-/
namespace TypeLang

/-- The type behind the pointers in front of it. -/
def TargetType.behindPointers : TargetType → TargetType
  | pointer target => target.behindPointers
  | type => type

namespace Wire

/-- Writes one value as a type. -/
abbrev Encoder := TargetType → Except WireError Bytes

/-- The fields of an object, each present one with its encoder. -/
abbrev Supplied := List (String × Option (Value × Encoder))

namespace Supplied

variable (supplied : Supplied)

/-- What is supplied for a name; the first entry of the name counts. -/
def find? (name : String) : Option (Value × Encoder) := (supplied.lookup name).join

/-- Whether a field is present. A mark given as false is not. -/
def has (f : Field) : Bool :=
  match supplied.find? f.name with
  | none => false
  | some (.bool set, _) => set || !f.isMark
  | some _ => true

/-- The bit that a field sets in a flags word. -/
def bitOf (word : String) (f : Field) : UInt32 :=
  match f.gate with
  | some g => if g.member = word ∧ supplied.has f then 1 <<< UInt32.ofNat g.bit.val else 0
  | none => 0

/-- A flags word: the bits of the gated fields that are present. -/
def flagsWord (fields : List Field) (word : String) : UInt32 :=
  fields.foldl (fun bits f => bits ||| supplied.bitOf word f) 0

/-- Writes one field of a constructor with these fields. -/
def encodeField (fields : List Field) (f : Field) : Except WireError Bytes :=
  if f.isWord then .ok (wordBytes (supplied.flagsWord fields f.name))
  else if f.gate.isSome && (!supplied.has f || f.isMark) then .ok []
  else match supplied.find? f.name with
    | none => .error (.missingField f.name)
    | some (_, encoder) => encoder f.type

/-- Writes the fields of a constructor in order. -/
def encodeFields (fields : List Field) : Except WireError Bytes := do
  return (← fields.mapM (supplied.encodeField fields)).flatten

end Supplied

mutual

def encodeValue (m : Model) : Value → Encoder
  | value, type =>
    match type.behindPointers, value with
    | .vector item, .vector items => do
      return vectorHeader items.length ++ (← encodeItems m items item)
    | .plain "bool", .bool b => .ok (boolBytes b)
    | .plain "quint32", .int n => .ok (wordBytes n)
    | .plain "quint64", .long n => .ok (longBytes n)
    | .plain "double", .double bits => .ok (longBytes bits)
    | .plain "QString", .string s => payloadBytes (Text.Utf8.encode s)
    | .plain "QByteArray", .bytes data => payloadBytes data
    | .plain "TLNumber128", .int128 block => .ok block.bytes
    | .plain "TLNumber256", .int256 block => .ok block.bytes
    | .plain name, .object id fields =>
      match m.type? name with
      | none => .error (.unknownType name)
      | some t =>
        match t.constructor? id with
        | none => .error (.unexpectedConstructor id)
        | some c => do
          return wordBytes id ++ (← Supplied.encodeFields (supply m fields) c.fields)
    | expected, _ => .error (.typeMismatch expected.text)

def encodeItems (m : Model) : List Value → Encoder
  | [], _ => .ok []
  | value :: values, item => do
    let bytes ← encodeValue m value item
    return bytes ++ (← encodeItems m values item)

/-- Gives each present field its encoder. -/
def supply (m : Model) : List (String × Option Value) → Supplied
  | [] => []
  | (name, none) :: rest => (name, none) :: supply m rest
  | (name, some value) :: rest => (name, some (value, encodeValue m value)) :: supply m rest

end

end Wire

namespace Model

def encode (m : Model) (type : TargetType) (value : Value) : Except WireError Bytes :=
  Wire.encodeValue m value type

def findMethod (m : Model) (name : String) : Except WireError Method :=
  match m.method? name with
  | none => .error (.unknownMethod name)
  | some method => .ok method

/-- Writes a request: the method's id and its arguments in order. -/
def encodeRequest (m : Model) (name : String) (arguments : List (String × Option Value)) :
    Except WireError Bytes := do
  let method ← m.findMethod name
  let fields ← (Wire.supply m arguments).encodeFields method.fields
  return Wire.wordBytes method.id ++ fields

end Model

end TypeLang
