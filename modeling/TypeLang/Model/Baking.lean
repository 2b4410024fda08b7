import TypeLang.Model.Basic

/-!
# Baking

All constructors of a type share one struct, so a member name must mean the same kind of member in
every constructor. Baking renames the fields of ambiguous names: first each gets the words of its
type appended, then the names still ambiguous keep their first kind and number the others.
-/
namespace TypeLang

/-- What a field contributes to the struct: an accessor for its bit, or a member of its type. -/
inductive MemberKind where
  | mark
  | value (type : TargetType)
  deriving DecidableEq, Repr

/-- The kind of member a field contributes. -/
def Field.kind (f : Field) : MemberKind := if f.isMark then .mark else .value f.type

namespace Baking

/-- The kinds that a name stands for, in the order of their first occurrences. -/
def kindsOf (fields : List Field) (name : String) : List MemberKind :=
  distinct ((fields.filter (·.name == name)).map (·.kind))

/-- The names in the order of their first occurrences. -/
def namesOf (fields : List Field) : List String := distinct (fields.map (·.name))

/-- The names that stand for more than one kind. -/
def ambiguousNames (fields : List Field) : List String :=
  (namesOf fields).filter fun name => 1 < (kindsOf fields name).length

/-- A renaming of fields by name and kind; `none` keeps the name. -/
abbrev Renaming := String → MemberKind → Option String

/-- The new name of a gate's word, when the constructor has a flags word of that name that is
renamed. -/
def renamedWord? (rename : Renaming) (fields : List Field) (member : String) : Option String :=
  fields.findSome? fun f => if f.isWord && f.name == member then rename f.name f.kind else none

/-- Renames one field of a constructor with these fields; its gate follows its flags word. -/
def renameField (rename : Renaming) (fields : List Field) (f : Field) : Field :=
  { f with
    name := (rename f.name f.kind).getD f.name
    gate := f.gate.map fun g =>
      { g with member := (renamedWord? rename fields g.member).getD g.member } }

def renameFields (rename : Renaming) (fields : List Field) : List Field :=
  fields.map (renameField rename fields)

/-- How many fields a renaming reaches. -/
def renamedCount (rename : Renaming) (fields : List Field) : Nat :=
  fields.countP fun f => (rename f.name f.kind).isSome

/-- The type of the last field of a name. -/
def typeOf? (fields : List Field) (name : String) : Option TargetType :=
  (fields.reverse.find? (·.name == name)).map (·.type)

/-- The renaming that appends the words of a type to an ambiguous name, in a constructor with these
fields. -/
def appendWords (ambiguous : List String) (fields : List Field) : Renaming := fun name _ =>
  if name ∈ ambiguous then
    let words := ((typeOf? fields name).map fun type => type.disambiguation name).getD ""
    if words.isEmpty then none else some (name ++ words)
  else none

/-- The first numbered form of a name that is not taken, counting from two. -/
def freshName (taken : List String) (name : String) : String :=
  let number := (List.range' 2 (taken.length + 1)).find? fun n => name ++ toString n ∉ taken
  name ++ toString (number.getD 2)

/-- The numbered names for ambiguous names and the kinds after their first, none of them taken. -/
def numberKinds (taken : List String) :
    List (String × MemberKind) → List ((String × MemberKind) × String)
  | [] => []
  | (name, kind) :: rest =>
    let fresh := freshName taken name
    ((name, kind), fresh) :: numberKinds (fresh :: taken) rest

/-- The renaming that numbers the kinds after the first of each ambiguous name. -/
def numberRest (fields : List Field) : Renaming :=
  let rest := (ambiguousNames fields).flatMap fun name =>
    ((kindsOf fields name).drop 1).map (name, ·)
  let numbers := numberKinds (namesOf fields) rest
  fun name kind => numbers.lookup (name, kind)

/-- Applies to each constructor the renaming chosen for its fields. -/
def renameType (rename : List Field → Renaming) (t : TaggedType) : TaggedType :=
  { t with constructors := t.constructors.map fun c =>
      { c with fields := renameFields (rename c.fields) c.fields } }

def countType (rename : List Field → Renaming) (t : TaggedType) : Nat :=
  (t.constructors.map fun c => renamedCount (rename c.fields) c.fields).foldr (· + ·) 0

end Baking

open Baking

/-- Bakes one type, with the number of fields renamed. -/
def TaggedType.bake (t : TaggedType) : TaggedType × Nat :=
  let words := appendWords (ambiguousNames t.fields)
  let worded := renameType words t
  let numbers := numberRest worded.fields
  (renameType (fun _ => numbers) worded, countType words t + countType (fun _ => numbers) worded)

/-- Bakes every type, with the number of fields renamed. -/
def Model.bake (m : Model) : Model × Nat :=
  let baked := m.types.map TaggedType.bake
  ({ m with
      types := baked.map (·.1)
      typeIndex_eq := by
        rw [List.map_map, List.map_map, m.typeIndex_eq]
        rfl },
    (baked.map (·.2)).foldr (· + ·) 0)

end TypeLang
