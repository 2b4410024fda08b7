import TypeLang.Model.Basic

/-!
# Reachable types

What a set of types holds, directly or through the fields of the types it holds: the named types,
and every vector type on the way. A walk enters each type once. Types in `closed` are reached and
not entered, and so are names without a definition.
-/
namespace TypeLang

/-- The types met on a walk. -/
structure Reach where
  /-- The names of the types met that are not built in. -/
  types : List String
  /-- The vector types met, those inside others included. -/
  vectors : List TargetType
  deriving DecidableEq, Repr, Inhabited

/-- The number of templates and names in a type. -/
def TargetType.size : TargetType → Nat
  | plain _ => 1
  | vector item => item.size + 1
  | pointer target => target.size + 1

namespace Reach

def addVector (r : Reach) (type : TargetType) : Reach :=
  { r with vectors := if type ∈ r.vectors then r.vectors else type :: r.vectors }

def addType (r : Reach) (name : String) : Reach := { r with types := name :: r.types }

/-- What a walk enters from a name: the types of the fields that carry a value. -/
def heldBy (m : Model) (closed : List String) (name : String) : List TargetType :=
  if name ∈ closed then []
  else ((m.type? name).map fun t => (wireFields t.fields).map (·.type)).getD []

/-- The number of defined types that were not met. -/
def unmet (m : Model) (r : Reach) : Nat := m.types.countP fun t => t.name ∉ r.types

theorem unmet_addType_le (m : Model) (r : Reach) (name : String) :
    unmet m (r.addType name) ≤ unmet m r := by
  apply List.countP_mono_left
  simp [addType]

/-- Taking up a type that holds something leaves less to meet. -/
theorem unmet_addType_lt {m : Model} {r : Reach} {name : String} {closed : List String}
    (hnew : name ∉ r.types) (hheld : heldBy m closed name ≠ []) :
    unmet m (r.addType name) < unmet m r := by
  have hdef : ∃ t ∈ m.types, t.name = name := by
    by_cases hclosed : name ∈ closed
    · simp [heldBy, hclosed] at hheld
    · cases hfind : m.type? name with
      | none => simp [heldBy, hclosed, hfind] at hheld
      | some t =>
        rw [Model.type?_eq_find?] at hfind
        have hname := List.find?_some hfind
        exact ⟨t, List.mem_of_find?_eq_some hfind, by simpa using hname⟩
  obtain ⟨t, hmem, rfl⟩ := hdef
  obtain ⟨before, after, hsplit⟩ := List.append_of_mem hmem
  have hle : ∀ ts : List TaggedType, (ts.countP fun u => u.name ∉ (r.addType t.name).types) ≤
      ts.countP fun u => u.name ∉ r.types := fun ts => by
    apply List.countP_mono_left
    simp [addType]
  have hbefore := hle before
  have hafter := hle after
  simp only [unmet, hsplit, List.countP_append, List.countP_cons]
  simp only [addType, List.mem_cons, true_or, not_true_eq_false, decide_false, hnew,
    not_false_eq_true, decide_true] at hbefore hafter ⊢
  simp only [Bool.false_eq_true, if_false, if_true]
  omega

/-- Walks from the types in `todo`. -/
def walk (m : Model) (closed : List String) (r : Reach) : List TargetType → Reach
  | [] => r
  | .vector item :: todo => walk m closed (r.addVector (.vector item)) (item :: todo)
  | .pointer target :: todo => walk m closed r (target :: todo)
  | .plain name :: todo =>
    if TargetType.isBuiltin name then walk m closed r todo
    else if name ∈ r.types then walk m closed r todo
    else walk m closed (r.addType name) (heldBy m closed name ++ todo)
termination_by todo => (unmet m r, (todo.map TargetType.size).foldr (· + ·) 0)
decreasing_by
  · simp only [unmet, addVector, List.map_cons, List.foldr_cons, TargetType.size]
    exact Prod.Lex.right _ (by omega)
  · simp only [List.map_cons, List.foldr_cons, TargetType.size]
    exact Prod.Lex.right _ (by omega)
  · simp only [List.map_cons, List.foldr_cons, TargetType.size]
    exact Prod.Lex.right _ (by omega)
  · simp only [List.map_cons, List.foldr_cons, TargetType.size]
    exact Prod.Lex.right _ (by omega)
  · next hnew =>
    by_cases hheld : heldBy m closed name = []
    · rcases Nat.lt_or_eq_of_le (unmet_addType_le m r name) with hlt | heq
      · exact Prod.Lex.left _ _ hlt
      · simp only [heq, hheld, List.nil_append, List.map_cons, List.foldr_cons, TargetType.size]
        exact Prod.Lex.right _ (by omega)
    · exact Prod.Lex.left _ _ (unmet_addType_lt hnew hheld)

end Reach

/-- What the given types reach. -/
def Model.reach (m : Model) (closed : List String) (roots : List TargetType) : Reach :=
  Reach.walk m closed ⟨[], []⟩ roots

end TypeLang
