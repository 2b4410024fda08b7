import TypeLang.Wire.Encode

/-!
# Decoding

Values are read as a target type, with the same layout that they are written in. Objects may nest
as deep as the input lasts: each object consumes the four bytes of its id before anything inside
it, so a nesting as deep as the number of input bytes has none left to read.
-/
namespace TypeLang

namespace Wire

variable {α : Type}

def readItems (item : Reader α) : Nat → Reader (List α)
  | 0 => return []
  | n + 1 => do
    let first ← item
    return first :: (← readItems item n)

/-- Reads a value as a type; `object` reads a value of a generated type. -/
def readValue (object : String → Reader Value) : TargetType → Reader Value
  | .pointer target => readValue object target
  | .vector item => do
    let length ← readVectorHeader
    return .vector (← readItems (readValue object item) length)
  | .plain "bool" => return .bool (← readBool)
  | .plain "quint32" => return .int (← readWord)
  | .plain "quint64" => return .long (← readLong)
  | .plain "double" => return .double (← readLong)
  | .plain "QString" => return .string (← readString)
  | .plain "QByteArray" => return .bytes (← readPayload)
  | .plain "TLNumber128" => return .int128 (← readBlock 16)
  | .plain "TLNumber256" => return .int256 (← readBlock 32)
  | .plain name => object name

/-- Whether a gate is open, by the flags words read so far, the last one first. -/
def isOpen (words : List (String × UInt32)) (g : FieldGate) : Bool :=
  ((words.lookup g.member).getD 0) &&& (1 <<< UInt32.ofNat g.bit.val) != 0

/-- Reads one field that is not a flags word; a closed gate leaves it absent. -/
def readField (value : TargetType → Reader Value) (words : List (String × UInt32)) (f : Field) :
    Reader (Option Value) :=
  match f.gate with
  | none => return some (← value f.type)
  | some g =>
    if !isOpen words g then return none
    else if f.isMark then return some (.bool true)
    else return some (← value f.type)

def readFields (value : TargetType → Reader Value) (words : List (String × UInt32)) :
    List Field → Reader (List (String × Option Value))
  | [] => return []
  | f :: fields =>
    if f.isWord then do
      let word ← readWord
      readFields value ((f.name, word) :: words) fields
    else do
      let first ← readField value words f
      return (f.name, first) :: (← readFields value words fields)

/-- Reads an object of a type, with at most `depth` objects inside each other. -/
def readObject (m : Model) : Nat → String → Reader Value
  | 0, _ => throw .endOfInput
  | depth + 1, name => do
    let id ← readWord
    match m.type? name with
    | none => throw (.unknownType name)
    | some t =>
      match t.constructor? id with
      | none => throw (.unexpectedConstructor id)
      | some c => return .object id (← readFields (readValue (readObject m depth)) [] c.fields)

end Wire

namespace Model

variable (m : Model)

/-- Reads a value as a type. -/
def read (type : TargetType) : Reader Value := fun input =>
  Wire.readValue (Wire.readObject m input.length) type input

/-- Reads the fields of a constructor or method. -/
def readFields (fields : List Field) : Reader (List (String × Option Value)) := fun input =>
  Wire.readFields (Wire.readValue (Wire.readObject m input.length)) [] fields input

/-- What a reader makes of the front of an input. -/
def runReader {α : Type} (r : Reader α) (input : Bytes) : Except WireError α :=
  match r.run input with
  | .ok value _ => .ok value
  | .error e _ => .error e

/-- Reads a value from the front of an input. -/
def decode (type : TargetType) (input : Bytes) : Except WireError Value :=
  runReader (m.read type) input

/-- Reads an object of whatever type its id names. -/
def decodeAny (input : Bytes) : Except WireError Object :=
  runReader (do
    let id ← Wire.readWord
    match m.constructorById? id with
    | none => throw (.unexpectedConstructor id)
    | some (_, c) => return ⟨id, ← m.readFields c.fields⟩) input

/-- Reads a request: the method and its arguments. -/
def decodeRequest (input : Bytes) : Except WireError (String × Object) :=
  runReader (do
    let id ← Wire.readWord
    match m.methodById? id with
    | none => throw (.unknownMethod (Text.hexConstant id))
    | some method => return (method.name, ⟨id, ← m.readFields method.fields⟩)) input

def decodeResult (name : String) (input : Bytes) : Except WireError Value := do
  let method ← m.findMethod name
  m.decode method.result input

end Model

end TypeLang
