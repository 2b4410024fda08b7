import TypeLang.Model.Basic

/-!
# Models of definitions

Definitions are entered into a draft of the model one after the other, in schema order. Of several
definitions with one name the first counts, constructors and methods apart. A constructor is added
to the type of its target, which may have been opened long before; a tag constant to the last group,
unless a new one has to be opened for it.
-/
namespace TypeLang

namespace Definition

def entityName (d : Definition) : String := Naming.entity d.name.text

def tag (d : Definition) : String := Naming.tag d.entityName

/-- The target of the result type. -/
def target (d : Definition) : TargetType := .ofTypeExpr d.result

/-- What consecutive definitions of one group share. -/
def groupLabel (d : Definition) : String :=
  match d.category with
  | .types => d.result.name.text
  | .functions => d.name.namespaceText

/-- What tells groups apart. -/
def groupKey (d : Definition) : Category × String := (d.category, d.groupLabel)

end Definition

namespace Constructor

/-- The constructor that a definition defines. -/
def ofDefinition (d : Definition) : Constructor where
  name := d.entityName
  id := d.id
  fields := d.parameters.map .ofParameter
  source := d.source

end Constructor

namespace Method

/-- The method that a definition defines. -/
def ofDefinition (d : Definition) : Method where
  name := d.entityName
  id := d.id
  result := d.target
  fields := d.parameters.map .ofParameter
  source := d.source
  template := d.template

end Method

namespace GroupEntry

def ofDefinition (d : Definition) : GroupEntry where
  tag := d.tag
  id := d.id
  source := d.source

end GroupEntry

def TaggedType.addConstructor (t : TaggedType) (c : Constructor) : TaggedType :=
  { t with constructors := t.constructors ++ [c] }

/-- One more constructor does not change the name of the type. -/
theorem map_name_modify (ts : List TaggedType) (i : Nat) (c : Constructor) :
    (ts.modify i (·.addConstructor c)).map (·.name) = ts.map (·.name) := by
  refine List.ext_getElem? fun j => ?_
  rw [List.getElem?_map, List.getElem?_map, List.getElem?_modify, Option.map_eq_map,
    Option.map_map]
  congr 1
  funext t
  rw [Function.comp_apply]
  split <;> rfl

def Group.addEntry (g : Group) (e : GroupEntry) : Group := { g with entries := g.entries ++ [e] }

namespace Model

/-- The model with one more constructor, whose type is added if the index does not know it. -/
def addConstructor (m : Model) (target schemaName : String) (c : Constructor) : Model :=
  match m.typeIndex.lookup target with
  | some i => { m with
      types := m.types.modify i (·.addConstructor c)
      typeIndex_eq := by rw [map_name_modify, m.typeIndex_eq] }
  | none => { m with
      types := m.types ++ [{ name := target, schemaName, constructors := [c] }]
      typeIndex := m.typeIndex ++ [(target, m.types.length)]
      typeIndex_eq := by
        rw [List.map_append, List.map_singleton, positions_concat, List.length_map,
          m.typeIndex_eq] }

def addMethod (m : Model) (method : Method) : Model :=
  { m with
    methods := m.methods ++ [method]
    methodIndex := m.methodIndex ++ [(method.name, m.methods.length)]
    methodIndex_eq := by
      rw [List.map_append, List.map_singleton, positions_concat, List.length_map,
        m.methodIndex_eq] }

/-- The model with one more group, which lists nothing yet. -/
def openGroup (m : Model) (label : String) : Model :=
  { m with groups := m.groups ++ [⟨label, []⟩] }

/-- The model with one more constant in its last group. -/
def addEntry (m : Model) (e : GroupEntry) : Model :=
  { m with groups := m.groups.modify (m.groups.length - 1) fun g => g.addEntry e }

end Model

/-- A model that definitions are still entered into. -/
structure Draft where
  model : Model
  /-- The names of the constructors. -/
  constructorNames : List String
  /-- The key of the last group. -/
  lastKey : Option (Category × String)

namespace Draft

/-- The draft before any definition. -/
def empty : Draft where
  model := .empty
  constructorNames := []
  lastKey := none

variable (draft : Draft) (d : Definition)

/-- Whether the entity that the definition defines is there. -/
def knows : Bool :=
  match d.category with
  | .types => draft.constructorNames.contains d.entityName
  | .functions => (draft.model.methodIndex.lookup d.entityName).isSome

/-- Lists the tag constant, in a new group if the last one has another key. -/
def list : Draft :=
  if draft.lastKey = some d.groupKey then
    { draft with model := draft.model.addEntry (.ofDefinition d) }
  else
    { draft with
      model := (draft.model.openGroup d.groupLabel).addEntry (.ofDefinition d)
      lastKey := some d.groupKey }

/-- Adds the constructor or the method. -/
def define : Draft :=
  match d.category with
  | .types =>
    { draft with
      model := draft.model.addConstructor d.target.text d.result.name.text (.ofDefinition d)
      constructorNames := d.entityName :: draft.constructorNames }
  | .functions => { draft with model := draft.model.addMethod (.ofDefinition d) }

/-- Enters a definition, or drops it if what it defines is there. -/
def enter : Draft := if draft.knows d then draft else (draft.list d).define d

end Draft

/-- The model of a list of definitions in schema order. -/
def Model.ofDefinitions (ds : List Definition) : Model := (ds.foldl Draft.enter .empty).model

end TypeLang
