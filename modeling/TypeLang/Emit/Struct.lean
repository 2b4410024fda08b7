import TypeLang.Emit.Stream

/-!
# Structs

All constructors of a type share one struct: the members of every constructor, an accessor for each
mark, and the tag that tells which constructor a value has.
-/
namespace TypeLang

/-- How a mark is told from a value: the tags of the constructors that declare it, with its gate in
each. -/
structure Accessor where
  name : String
  gates : List (String × FieldGate)
  deriving DecidableEq, Repr, Inhabited

namespace Accessor

/-- What an accessor does. -/
inductive Body where
  /-- Tells the bit of a gate, whatever the tag. -/
  | always (gate : FieldGate)
  /-- Tells the bit of the gate that belongs to the tag, and false for other tags. -/
  | byTag (gates : List (String × FieldGate))
  deriving DecidableEq, Repr, Inhabited

/-- When all gates are the same, the tag is not looked at. -/
def body (a : Accessor) : Body :=
  match a.gates with
  | [] => .byTag []
  | (_, first) :: rest =>
    if rest.all fun entry => entry.2 == first then .always first else .byTag a.gates

def code (a : Accessor) : Code :=
  let head := "bool " ++ a.name ++ "() const"
  match a.body with
  | .always gate => Code.line (head ++ " \x7b return " ++ Code.bit "" gate ++ "; \x7d")
  | .byTag gates =>
    let arms := gates.flatMap fun entry =>
      Code.arm (Emit.caseLabel entry.1) (Code.line ("return " ++ Code.bit "" entry.2 ++ ";"))
    Code.braced head (Code.switch "tlType" arms (Code.line "return false;"))

end Accessor

namespace TaggedType

/-- The members of the struct: the fields that carry a value, the first of each name. -/
def members (t : TaggedType) : List Field := distinctBy (·.name) (wireFields t.fields)

/-- The marks of a type: their names, with the tags and gates that they are declared with. -/
def marks (t : TaggedType) : List (String × String × FieldGate) :=
  t.constructors.flatMap fun c => c.fields.filterMap fun f =>
    if f.isMark then f.gate.map fun g => (f.name, c.tag, g) else none

/-- The accessors of the struct, in the order of their first declarations. -/
def accessors (t : TaggedType) : List Accessor :=
  (distinct (t.marks.map (·.1))).map fun name =>
    ⟨name, (t.marks.filter (·.1 == name)).map (·.2)⟩

end TaggedType

namespace Emit

/-- Declares the structs that others point to, in alphabetical order. -/
def forwardDeclarations (types : List TaggedType) : Code :=
  let targets := ((types.flatMap (·.fields)).filter (·.type.isIndirect)).map (·.type.base)
  ((distinct targets).mergeSort fun a b => decide (a ≤ b)).flatMap fun target =>
    Code.line ("struct " ++ target ++ ";")

/-- The default constructor: numbers are zero, and the tag is that of the first constructor. -/
def constructorCode (t : TaggedType) (first : Constructor) : Code :=
  let zeros := t.members.flatMap fun f =>
    f.type.zero?.toList.flatMap fun zero => Code.line (f.name ++ "(" ++ zero ++ "),")
  Code.line (t.name ++ "() :")
    ++ Code.nest (zeros ++ Code.line ("tlType(" ++ tagConstant first.tag ++ ") \x7b \x7d"))

def predicateCode (t : TaggedType) : Code :=
  let labels := t.constructors.flatMap fun c => Code.line (caseLabel c.tag)
  let arms := labels ++ Code.nest (Code.line "return true;")
  Code.line "bool isValid() const \x7b return hasType(tlType); \x7d"
    ++ Code.braced "static bool hasType(const quint32 value)"
      (Code.switch "value" arms (Code.line "return false;"))

def structCode (sources : Bool) (t : TaggedType) : Code :=
  match t.constructors with
  | [] => []
  | first :: _ =>
    let comments := t.constructors.flatMap fun c => Code.source sources c.source
    let members := t.members.flatMap fun f => Code.line (f.type.text ++ " " ++ f.name ++ ";")
    comments ++ Code.braced ("struct " ++ t.name)
      (constructorCode t first ++ Code.blank ++ predicateCode t
        ++ t.accessors.flatMap Accessor.code ++ members ++ Code.line "TLValue tlType;") ";"

/-- The structs of types, each after those it holds by value. -/
def structsCode (sources : Bool) (types : List TaggedType) : Code :=
  Code.blocks (forwardDeclarations types :: types.map (structCode sources))

end Emit

end TypeLang
