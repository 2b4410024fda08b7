import TypeLang.Model.Distinct
import TypeLang.Naming.Entity
import TypeLang.Naming.Target
import TypeLang.Schema.Definition

/-!
# The schema model

A schema as the emitted code sees it: tagged types with their constructors, methods, and the groups
that the tag constants are listed in. `Model.ofDefinitions` builds it from definitions in schema
order; of several definitions with one name the first counts.
-/
namespace TypeLang

/-- The condition that a bit of a flags word is set, with the word under its member name. -/
structure FieldGate where
  member : String
  bit : Fin 32
  deriving DecidableEq, Repr, Inhabited

/-- A field of a constructor or an argument of a method. -/
structure Field where
  /-- The member name. -/
  name : String
  type : TargetType
  /-- The type as written in the schema. -/
  schemaType : String
  gate : Option FieldGate
  deriving DecidableEq, Repr, Inhabited

namespace Field

/-- Whether this is a flags word. -/
def isWord (f : Field) : Bool := f.schemaType == "#"

/-- Whether this is a mark: a gated field without a payload, whose value is its bit. -/
def isMark (f : Field) : Bool := f.gate.isSome && f.schemaType == "true"

def ofParameter (p : Parameter) : Field :=
  match p.type with
  | .flags =>
    { name := Naming.member p.name, type := .plain "quint32", schemaType := "#", gate := none }
  | .value type gate =>
    { name := Naming.member p.name, type := .ofTypeExpr type, schemaType := type.text,
      gate := gate.map fun g => ⟨Naming.member g.word, g.bit⟩ }

end Field

/-- The fields that exist on the wire. Marks have no payload. -/
def wireFields (fields : List Field) : List Field := fields.filter fun f => !f.isMark

/-- One wire shape of a type. -/
structure Constructor where
  name : String
  id : UInt32
  /-- The fields in wire order. -/
  fields : List Field
  /-- The schema text this came from. -/
  source : Option String
  deriving DecidableEq, Repr, Inhabited

/-- The constant that holds the id. -/
def Constructor.tag (c : Constructor) : String := Naming.tag c.name

/-- A type that is the sum of its constructors. -/
structure TaggedType where
  /-- The target name. -/
  name : String
  schemaName : String
  /-- The constructors in schema order. -/
  constructors : List Constructor
  deriving DecidableEq, Repr, Inhabited

namespace TaggedType

/-- Whether the target name is built in, so that nothing is emitted for the type. -/
def isBuiltin (t : TaggedType) : Bool := TargetType.isBuiltin t.name

def fields (t : TaggedType) : List Field := t.constructors.flatMap (·.fields)

def constructor? (t : TaggedType) (id : UInt32) : Option Constructor :=
  t.constructors.find? (·.id == id)

end TaggedType

/-- A method of the interface. -/
structure Method where
  name : String
  id : UInt32
  result : TargetType
  /-- The arguments in wire order. -/
  fields : List Field
  source : Option String
  /-- Whether the schema line declares type variables; such a method gets no code. -/
  template : Bool
  deriving DecidableEq, Repr, Inhabited

/-- The constant that holds the id. -/
def Method.tag (m : Method) : String := Naming.tag m.name

/-- One tag constant. -/
structure GroupEntry where
  tag : String
  id : UInt32
  source : Option String
  deriving DecidableEq, Repr, Inhabited

/-- Consecutive definitions that share a result type, if constructors, or a namespace, if
methods. -/
structure Group where
  label : String
  entries : List GroupEntry
  deriving DecidableEq, Repr, Inhabited

/-- The positions of names, as an index holds them. -/
def positions (names : List String) : List (String × Nat) := names.zipIdx

/-- A whole schema, with an index of the types and one of the methods. -/
structure Model where
  /-- The types in the order of their first constructors. -/
  types : List TaggedType
  typeIndex : List (String × Nat) := positions (types.map (·.name))
  methods : List Method
  methodIndex : List (String × Nat) := positions (methods.map (·.name))
  groups : List Group
  typeIndex_eq : typeIndex = positions (types.map (·.name)) := by rfl
  methodIndex_eq : methodIndex = positions (methods.map (·.name)) := by rfl
  deriving DecidableEq, Repr

theorem positions_concat (names : List String) (name : String) :
    positions (names ++ [name]) = positions names ++ [(name, names.length)] := by
  rw [positions, positions, List.zipIdx_append, Nat.zero_add, List.zipIdx_singleton]

/-- A name is numbered by its first place. -/
theorem lookup_zipIdx (names : List String) (name : String) (start : Nat) :
    (names.zipIdx start).lookup name = (names.findIdx? (· == name)).map (· + start) := by
  induction names generalizing start with
  | nil => rfl
  | cons other names ih =>
    rw [List.zipIdx_cons, List.lookup_cons, List.findIdx?_cons, ih, BEq.comm (a := name)]
    cases other == name with
    | true => simp
    | false => simp [Function.comp_def, Nat.add_comm, Nat.add_left_comm]

/-- An index gives the position of the first element of a name. -/
theorem lookup_positions {α : Type} (nameOf : α → String) (as : List α) (name : String) :
    (positions (as.map nameOf)).lookup name = as.findIdx? (nameOf · == name) := by
  rw [positions, lookup_zipIdx, List.findIdx?_map]
  simp [Function.comp_def]

/-- Going through an index is searching for the name. -/
theorem bind_lookup_positions {α : Type} (nameOf : α → String) (as : List α) (name : String) :
    ((positions (as.map nameOf)).lookup name).bind (as[·]?) = as.find? (nameOf · == name) := by
  rw [lookup_positions, List.find?_eq_bind_findIdx?_getElem?]

namespace Model

variable (m : Model)

/-- The model of no definitions. -/
def empty : Model where
  types := []
  methods := []
  groups := []

instance : Inhabited Model := ⟨empty⟩

/-- The indices add nothing to a model. -/
@[ext] theorem ext {m other : Model} (types : m.types = other.types)
    (methods : m.methods = other.methods) (groups : m.groups = other.groups) : m = other := by
  rcases m with ⟨_, _, _, _, _, rfl, rfl⟩
  rcases other with ⟨_, _, _, _, _, rfl, rfl⟩
  cases types
  cases methods
  cases groups
  rfl

def type? (name : String) : Option TaggedType := (m.typeIndex.lookup name).bind (m.types[·]?)

def method? (name : String) : Option Method := (m.methodIndex.lookup name).bind (m.methods[·]?)

theorem type?_eq_find? (name : String) : m.type? name = m.types.find? (·.name == name) := by
  rw [type?, typeIndex_eq, bind_lookup_positions]

theorem method?_eq_find? (name : String) : m.method? name = m.methods.find? (·.name == name) := by
  rw [method?, methodIndex_eq, bind_lookup_positions]

/-- The method of an id, the first in schema order. -/
def methodById? (id : UInt32) : Option Method := m.methods.find? (·.id == id)

/-- The constructor of an id in any type, with that type; the first in model order. -/
def constructorById? (id : UInt32) : Option (TaggedType × Constructor) :=
  m.types.findSome? fun t => (t.constructor? id).map (t, ·)

end Model

end TypeLang
