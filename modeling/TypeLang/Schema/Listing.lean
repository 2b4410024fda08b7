import TypeLang.Json.Data
import TypeLang.Schema.Definition

/-!
# Listings

A schema as a JSON document: a record of two lists, `constructors` and `methods`. The dialect has
no gates. Records may also be written as lists of their fields in declared order, and unknown
fields are passed over unread. Ids are numbers, or strings that spell all ids of a document in one
radix.
-/
namespace TypeLang

open Text Json

/-- An id as written. -/
inductive ListedId where
  | text (value : String)
  | number (value : Int)
  deriving DecidableEq, Repr, Inhabited

/-- A parameter as listed. -/
structure ListedParameter where
  name : String
  type : String
  deriving DecidableEq, Repr, Inhabited

/-- A constructor or a method as listed. -/
structure ListedEntry where
  id : ListedId
  name : String
  parameters : List ListedParameter
  type : String
  deriving DecidableEq, Repr, Inhabited

/-- A schema as listed. -/
structure Listing where
  constructors : List ListedEntry
  methods : List ListedEntry
  deriving DecidableEq, Repr, Inhabited

namespace Listing

/-! ## Reading the document -/

/-- The values of the declared fields of a record; a field may be missing. Every key must be a
text, and no declared field may be given twice. In a list only fields at the end may be missing. -/
def fields? (declared : List String) : Node → Option (List (Option Node))
  | .list items =>
    if items.length ≤ declared.length then
      some (items.map some ++ List.replicate (declared.length - items.length) none)
    else none
  | .record entries => do
    let entries ← entries.mapM fun entry => entry.1.text?.map fun key => (key, entry.2)
    let isUnique (name : String) : Bool := entries.countP (fun entry => entry.1 == name) ≤ 1
    if declared.all isUnique then return declared.map fun name => entries.lookup name else none
  | _ => none

def list? {α : Type} (item? : Node → Option α) : Node → Option (List α)
  | .list items => items.mapM item?
  | _ => none

/-- Reads a list that may be missing. -/
def optionalList? {α : Type} (item? : Node → Option α) : Option Node → Option (List α)
  | none => some []
  | some node => list? item? node

def text? : Node → Option String
  | .text quoted => quoted.text?
  | _ => none

/-- Reads an id: a text, or an integer within 64 signed bits. -/
def id? : Node → Option ListedId
  | .text quoted => quoted.text?.map .text
  | .number numeral =>
    (numeral.integer?.filter fun value => value < 0x8000000000000000).map .number
  | _ => none

def parameter? (node : Node) : Option ListedParameter := do
  match ← fields? ["name", "type"] node with
  | [some name, some type] => return { name := ← text? name, type := ← text? type }
  | _ => none

/-- Reads a constructor or a method; `nameField` is the field of its name. -/
def listed? (nameField : String) (node : Node) : Option ListedEntry := do
  match ← fields? ["id", nameField, "params", "type"] node with
  | [some id, some name, parameters, some type] =>
    return { id := ← id? id, name := ← text? name
             parameters := ← optionalList? parameter? parameters, type := ← text? type }
  | _ => none

def ofNode? (node : Node) : Option Listing := do
  match ← fields? ["constructors", "methods"] node with
  | [constructors, methods] =>
    return { constructors := ← optionalList? (listed? "predicate") constructors
             methods := ← optionalList? (listed? "method") methods }
  | _ => none

/-! ## Ids -/

/-- The radix of the ids of a document. -/
inductive Spelling where
  | hexadecimal
  | decimal
  deriving DecidableEq, Repr, Inhabited

/-- What a string gives away about the radix: letters are hexadecimal; a minus sign, and more
bytes than an id has hexadecimal digits, are decimal. -/
def Spelling.of? (s : String) : Option Spelling :=
  let cs := trim s.toList
  if cs.any Char.isAlpha then some .hexadecimal
  else if cs.head? = some '-' ∨ 8 < (String.ofList cs).utf8ByteSize then some .decimal
  else none

/-- The entries that give the radix away. -/
def spelled (entries : List ListedEntry) : List (Spelling × String) :=
  entries.filterMap fun entry =>
    match entry.id with
    | .text value => (Spelling.of? value).map fun spelling => (spelling, entry.name)
    | .number _ => none

/-- The radix of a document, hexadecimal when no entry gives it away. All that do must agree. -/
def spelling (entries : List ListedEntry) : Except SchemaError Spelling :=
  match spelled entries with
  | [] => .ok .hexadecimal
  | (first, firstName) :: rest =>
    match rest.find? fun entry => entry.1 != first with
    | none => .ok first
    | some (_, secondName) => .error (.mixedIds firstName secondName)

/-- Drops every repetition of `start` at the front. -/
def dropStarts (start : List Char) (cs : List Char) : List Char :=
  match _hdrop : dropStart? start cs with
  | none => cs
  | some rest => if _hshort : rest.length < cs.length then dropStarts start rest else cs
termination_by cs.length

/-- Reads the word that an id stands for. -/
def readId (spelling : Spelling) : ListedId → Except DefinitionError UInt32
  | .number value =>
    if -0x80000000 ≤ value ∧ value < 0x100000000 then .ok (.ofInt value)
    else .error (.idOutOfRange value)
  | .text value =>
    let cs := trim value.toList
    match spelling with
    | .hexadecimal =>
      let digits := dropStarts "0X".toList (dropStarts "0x".toList cs)
      (readWord 16 digits).mapError .invalidId
    | .decimal =>
      match readSignedWord cs with
      | .ok id => .ok id
      | .error _ => (readWord 10 cs).mapError .invalidId

/-! ## Definitions -/

def readResult (type : String) : Except DefinitionError TypeExpr :=
  match words type.toList with
  | [] => .error .missingType
  | word :: _ => (TypeExpr.read word).mapError fun _ => .missingType

def readParameter (p : ListedParameter) : Except DefinitionError Parameter :=
  if p.name.isEmpty then .error (.parameter .empty)
  else ((ParameterType.readUngated p.type.toList).mapError .parameter).map (⟨p.name, ·⟩)

/-- Reads an entry. Its source is the line that defines it in a schema text. -/
def readEntry (spelling : Spelling) (category : Category) (entry : ListedEntry) :
    Except DefinitionError Definition := do
  let some name := QualifiedName.read? entry.name.toList | throw .missingName
  let result ← readResult entry.type
  let template := entry.parameters.any fun p => p.type.toList.head? == some '!'
  let parameters ← if template then pure [] else entry.parameters.mapM readParameter
  let id ← readId spelling entry.id
  let d : Definition := { name, id, parameters, result, category, template, source := none }
  return { d with source := some d.text }

def readEntries (spelling : Spelling) (category : Category) (entries : List ListedEntry) :
    Except SchemaError (List Definition) :=
  entries.mapM fun entry =>
    (readEntry spelling category entry).mapError fun cause => .entry entry.name cause

/-- The definitions of a listing, constructors first. -/
def definitions (listing : Listing) : Except SchemaError (List Definition) := do
  let spelling ← spelling (listing.constructors ++ listing.methods)
  let constructors ← readEntries spelling .types listing.constructors
  return constructors ++ (← readEntries spelling .functions listing.methods)

end Listing

/-- Reads a schema that is a JSON document. -/
def readListing (bytes : List UInt8) : Except SchemaError (List Definition) :=
  match (Node.read? bytes).bind Listing.ofNode? with
  | none => .error .document
  | some listing => listing.definitions

end TypeLang
