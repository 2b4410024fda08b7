import TypeLang.Model.Basic

/-!
# The order of types

A struct can only be declared after the structs it holds by value. `Model.resolve` orders the types
accordingly by sweeping over them until a sweep orders none, and reports the types left over with
the dependencies that hold them back.
-/
namespace TypeLang

/-- A type without a place in the order. -/
structure Unresolved where
  name : String
  /-- The direct dependencies that are undefined or unresolved themselves. -/
  blocking : List String
  deriving DecidableEq, Repr, Inhabited

def Unresolved.message (u : Unresolved) : String :=
  u.name ++ " (blocked by " ++ String.intercalate ", " u.blocking ++ ")"

/-- An order of types, and the types without a place in it. -/
structure Resolution where
  ordered : List String
  unresolved : List Unresolved
  deriving DecidableEq, Repr, Inhabited

/-- Whether every type found its place. -/
def Resolution.isComplete (r : Resolution) : Bool := r.unresolved.isEmpty

/-- The types held by value, directly or in vectors, in the order of their first uses. -/
def TaggedType.dependencies (t : TaggedType) : List String :=
  distinct ((t.fields.filter fun f => !f.type.isIndirect).map fun f => f.type.base)

namespace Resolution

/-- Whether a dependency is built in or has its place already. -/
def isSolved (ordered : List String) (name : String) : Bool :=
  TargetType.isBuiltin name || ordered.contains name

/-- A type that waits for its place, with what it holds by value. -/
structure Waiting where
  name : String
  dependencies : List String
  deriving DecidableEq, Repr, Inhabited

/-- Whether all dependencies are solved. -/
def Waiting.isReady (ordered : List String) (w : Waiting) : Bool :=
  w.dependencies.all (isSolved ordered)

/-- One pass over the waiting types: each that is ready gets the next place at once, so that later
ones may build on it. The others go on waiting. -/
def sweep (ordered : List String) : List Waiting → List String × List Waiting
  | [] => (ordered, [])
  | w :: rest =>
    if w.isReady ordered then sweep (ordered ++ [w.name]) rest
    else
      let next := sweep ordered rest
      (next.1, w :: next.2)

theorem length_sweep_le (ordered : List String) (waiting : List Waiting) :
    (sweep ordered waiting).2.length ≤ waiting.length := by
  fun_induction sweep ordered waiting with
  | case1 => simp
  | case2 ordered w rest h ih => simp only [List.length_cons]; omega
  | case3 ordered w rest h next ih => exact Nat.succ_le_succ ih

/-- Sweeps until a sweep gives no type a place. -/
def settle (ordered : List String) (waiting : List Waiting) : List String × List Waiting :=
  if (sweep ordered waiting).2.length < waiting.length then
    settle (sweep ordered waiting).1 (sweep ordered waiting).2
  else (ordered, waiting)
termination_by waiting.length

end Resolution

/-- The types that are not built in, waiting in model order. -/
def Model.waiting (m : Model) : List Resolution.Waiting :=
  (m.types.filter fun t => !t.isBuiltin).map fun t => ⟨t.name, t.dependencies⟩

/-- Orders the types that are not built in. -/
def Model.resolve (m : Model) : Resolution :=
  let (ordered, waiting) := Resolution.settle [] m.waiting
  { ordered
    unresolved := waiting.map fun w =>
      ⟨w.name, w.dependencies.filter fun d => !Resolution.isSolved ordered d⟩ }

end TypeLang
