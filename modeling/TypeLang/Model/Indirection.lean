import TypeLang.Model.Basic

/-!
# Indirections

Replacing a type that another one holds by value with a pointer to it, so that a type may contain
itself. Vectors are looked through, pointers are not.
-/
namespace TypeLang

/-- Wraps `member` where it stands behind vectors only. -/
def TargetType.wrap? (member : TargetType) (type : TargetType) : Option TargetType :=
  if type = member then some (.pointer member)
  else match type with
    | .vector item => (wrap? member item).map .vector
    | _ => none

namespace Model

/-- An owner and the type it is to hold by pointer, both under their schema names. -/
structure Edge where
  owner : String
  member : String
  deriving DecidableEq, Repr, Inhabited

namespace Edge

def ownerName (e : Edge) : String := TargetType.generatedName e.owner

/-- The target type to wrap. -/
def memberType (e : Edge) : TargetType := .ofText (TargetType.generatedName e.member)

/-- The field behind the edge. -/
def wrapField (e : Edge) (f : Field) : Field :=
  { f with type := (e.memberType.wrap? f.type).getD f.type }

/-- The type behind the edge; only the owner changes. -/
def wrapType (e : Edge) (t : TaggedType) : TaggedType :=
  if t.name = e.ownerName then
    { t with constructors := t.constructors.map fun c =>
        { c with fields := c.fields.map e.wrapField } }
  else t

/-- How many fields of a type the edge wraps. -/
def hits (e : Edge) (t : TaggedType) : Nat :=
  if t.name = e.ownerName then t.fields.countP fun f => (e.memberType.wrap? f.type).isSome else 0

@[simp] theorem name_wrapType (e : Edge) (t : TaggedType) : (e.wrapType t).name = t.name := by
  simp only [wrapType]
  split <;> rfl

end Edge

def cut (m : Model) (e : Edge) : Model :=
  { m with
    types := m.types.map e.wrapType
    typeIndex_eq := by simp only [List.map_map, Function.comp_def, Edge.name_wrapType,
      m.typeIndex_eq] }

/-- Cuts edges from left to right, with the number of fields rewritten. -/
def indirect (m : Model) (edges : List Edge) : Model × Nat :=
  edges.foldl (fun (m, n) e => (m.cut e, n + (m.types.map e.hits).foldr (· + ·) 0)) (m, 0)

end Model

end TypeLang
