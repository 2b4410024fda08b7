import TypeLang.Proofs.Emit.Punctuated
import TypeLang.Proofs.Generation.Operators
import TypeLang.Proofs.Model.Baking

/-!
# Declarations of a struct

What a struct declares after its default constructor: two predicates on the tag, an accessor for
each mark, a member for each value, and the tag. Baking leaves one kind of member to each name, so
that no two marks and values are declared under one name. The names that every struct declares of
its own are not among those that baking knows, and a field may have one of them.
-/
namespace TypeLang

open Emit

/-- A declaration in a struct. -/
structure Declaration where
  type : String
  name : String
  /-- What follows the name on its line. -/
  rest : String
  /-- The lines below, for a function with its body there. -/
  body : Code
  deriving DecidableEq, Repr

def Declaration.code (d : Declaration) : Code :=
  Code.line (d.type ++ " " ++ d.name ++ d.rest) ++ d.body

/-- The member function that tells a mark. -/
def Accessor.declaration (a : Accessor) : Declaration :=
  match a.body with
  | .always gate =>
    ⟨"bool", a.name, "() const \x7b return " ++ Code.bit "" gate ++ "; \x7d", []⟩
  | .byTag gates =>
    let arms := gates.flatMap fun entry =>
      Code.arm (caseLabel entry.1) (Code.line ("return " ++ Code.bit "" entry.2 ++ ";"))
    ⟨"bool", a.name, "() const \x7b",
      Code.nest (Code.switch "tlType" arms (Code.line "return false;")) ++ Code.line "\x7d"⟩

/-- The member that holds the value of a field. -/
def Field.declaration (f : Field) : Declaration := ⟨f.type.text, f.name, ";", []⟩

namespace TaggedType

/-- The names that every struct declares of its own. -/
def ownNames : List String := ["isValid", "hasType", "tlType"]

def predicates (t : TaggedType) : List Declaration :=
  let labels := t.constructors.flatMap fun c => Code.line (caseLabel c.tag)
  let arms := labels ++ Code.nest (Code.line "return true;")
  [⟨"bool", "isValid", "() const \x7b return hasType(tlType); \x7d", []⟩,
    ⟨"static bool", "hasType", "(const quint32 value) \x7b",
      Code.nest (Code.switch "value" arms (Code.line "return false;")) ++ Code.line "\x7d"⟩]

/-- The declarations of the struct, in order. -/
def declarations (t : TaggedType) : List Declaration :=
  t.predicates ++ t.accessors.map Accessor.declaration ++ t.members.map Field.declaration ++
    [⟨"TLValue", "tlType", ";", []⟩]

end TaggedType

/-! ## Their lines -/

@[simp] theorem Accessor.name_declaration (a : Accessor) : a.declaration.name = a.name := by
  simp only [Accessor.declaration]
  split <;> rfl

@[simp] theorem Accessor.code_declaration (a : Accessor) : a.declaration.code = a.code := by
  have htype : "bool " = "bool" ++ " " := rfl
  cases hbody : a.body with
  | always gate =>
    have hrest : "() const \x7b return " = "() const" ++ " \x7b return " := rfl
    simp only [Accessor.declaration, Accessor.code, Declaration.code, hbody, htype, hrest,
      String.append_assoc, List.append_nil]
  | byTag gates =>
    have hrest : "() const \x7b" = "() const" ++ " \x7b" := rfl
    simp only [Accessor.declaration, Accessor.code, Declaration.code, Code.braced, hbody, htype,
      hrest, String.append_assoc, List.append_assoc, String.append_empty]

@[simp] theorem Field.code_declaration (f : Field) :
    f.declaration.code = Code.line (f.type.text ++ " " ++ f.name ++ ";") :=
  List.append_nil _

namespace TaggedType

variable {t : TaggedType} {name : String}

theorem flatMap_code_predicates (t : TaggedType) :
    t.predicates.flatMap Declaration.code = predicateCode t := by
  simp only [predicates, predicateCode, Declaration.code, Code.braced, List.flatMap_cons,
    List.flatMap_nil, List.append_nil, List.append_assoc, String.append_empty]
  rfl

/-- The declarations of a struct are what is written between its braces. -/
theorem flatMap_code_declarations (t : TaggedType) :
    t.declarations.flatMap Declaration.code =
      predicateCode t ++ t.accessors.flatMap Accessor.code ++
        (t.members.flatMap fun f => Code.line (f.type.text ++ " " ++ f.name ++ ";")) ++
        Code.line "TLValue tlType;" := by
  have htag : (⟨"TLValue", "tlType", ";", []⟩ : Declaration).code = Code.line "TLValue tlType;" :=
    rfl
  simp only [declarations, List.flatMap_append, List.flatMap_map, flatMap_code_predicates,
    Accessor.code_declaration, Field.code_declaration, List.flatMap_singleton, htag]

/-- The struct is its comments and, in its braces, the default constructor and the declarations. -/
theorem structCode_eq {first : Constructor} (h : t.constructors.head? = some first)
    (sources : Bool) :
    structCode sources t =
      (t.constructors.flatMap fun c => Code.source sources c.source) ++
        Code.braced ("struct " ++ t.name)
          (constructorCode t first ++ Code.blank ++ t.declarations.flatMap Declaration.code)
          ";" := by
  obtain ⟨rest, hrest⟩ := List.head?_eq_some_iff.mp h
  simp [structCode, hrest, flatMap_code_declarations]

/-! ## Their names -/

theorem mem_names_members :
    name ∈ t.members.map (·.name) ↔ ∃ f ∈ t.fields, f.isMark = false ∧ f.name = name := by
  rw [members, mem_map_distinctBy]
  simp [wireFields, and_assoc]

/-- A mark is a field with a gate, so that every mark has an accessor. -/
theorem mem_names_accessors :
    name ∈ t.accessors.map (·.name) ↔ ∃ f ∈ t.fields, f.isMark = true ∧ f.name = name := by
  have hnames : t.accessors.map (·.name) = distinct (t.marks.map (·.1)) := by
    simp [accessors, Function.comp_def]
  rw [hnames, mem_distinct, List.mem_map]
  constructor
  · rintro ⟨mark, hmark, rfl⟩
    obtain ⟨c, hc, f, hf, hmark, -, hname, -⟩ := mem_marks.mp hmark
    exact ⟨f, List.mem_flatMap.mpr ⟨c, hc, hf⟩, hmark, hname.symm⟩
  · rintro ⟨f, hf, hmark, rfl⟩
    obtain ⟨c, hc, hf⟩ := List.mem_flatMap.mp hf
    obtain ⟨g, hg⟩ := Option.isSome_iff_exists.mp (Bool.and_eq_true_iff.mp hmark).1
    exact ⟨(f.name, c.tag, g), mem_marks.mpr ⟨c, hc, f, hf, hmark, hg, rfl, rfl⟩, rfl⟩

theorem nodup_names_accessors (t : TaggedType) : (t.accessors.map (·.name)).Nodup := by
  simpa [accessors, Function.comp_def] using nodup_distinct

/-- Marks and values together are all fields. -/
theorem mem_names_accessors_append_members :
    name ∈ t.accessors.map (·.name) ++ t.members.map (·.name) ↔
      ∃ f ∈ t.fields, f.name = name := by
  rw [List.mem_append, mem_names_accessors, mem_names_members]
  constructor
  · rintro (⟨f, hf, -, hname⟩ | ⟨f, hf, -, hname⟩) <;> exact ⟨f, hf, hname⟩
  · rintro ⟨f, hf, hname⟩
    cases hmark : f.isMark with
    | true => exact .inl ⟨f, hf, hmark, hname⟩
    | false => exact .inr ⟨f, hf, hmark, hname⟩

/-- Names are declared by the struct itself, by accessors and by members. -/
theorem perm_names_declarations (t : TaggedType) : (t.declarations.map (·.name)).Perm
    (ownNames ++ (t.accessors.map (·.name) ++ t.members.map (·.name))) := by
  have hnames : t.declarations.map (·.name) = ["isValid", "hasType"] ++
      ((t.accessors.map (·.name) ++ t.members.map (·.name)) ++ ["tlType"]) := by
    simp [declarations, predicates, Field.declaration, Function.comp_def]
  rw [hnames]
  exact List.perm_append_comm.append_left _

theorem mem_names_declarations :
    name ∈ t.declarations.map (·.name) ↔ name ∈ ownNames ∨ ∃ f ∈ t.fields, f.name = name := by
  rw [t.perm_names_declarations.mem_iff, List.mem_append, mem_names_accessors_append_members]

/-- Where a name stands for one kind of member, a name declared twice is one that the struct
declares of its own. -/
theorem Uniform.nodup_names_iff (h : t.Uniform) :
    (t.declarations.map (·.name)).Nodup ↔ ∀ f ∈ t.fields, f.name ∉ ownNames := by
  have hapart : (t.accessors.map (·.name)).Disjoint (t.members.map (·.name)) := by
    intro name hmark hvalue
    obtain ⟨f, hf, hmark, hname⟩ := mem_names_accessors.mp hmark
    obtain ⟨g, hg, hvalue, hsame⟩ := mem_names_members.mp hvalue
    have hkind := h f hf g hg (hname.trans hsame.symm)
    simp [Field.kind, hmark, hvalue] at hkind
  have hfields : (t.accessors.map (·.name) ++ t.members.map (·.name)).Nodup :=
    t.nodup_names_accessors.append nodup_map_distinctBy hapart
  have hown : ownNames.Nodup := by decide
  rw [t.perm_names_declarations.nodup_iff, List.nodup_append', and_iff_right hown,
    and_iff_right hfields]
  constructor
  · exact fun hdisjoint f hf hname =>
      hdisjoint hname (mem_names_accessors_append_members.mpr ⟨f, hf, rfl⟩)
  · intro hfree name hname hmem
    obtain ⟨f, hf, rfl⟩ := mem_names_accessors_append_members.mp hmem
    exact hfree f hf hname

/-- A member has the type of every value of its name. -/
theorem Uniform.type_eq_of_mem_members (h : t.Uniform) {held f : Field} (hheld : held ∈ t.members)
    (hf : f ∈ t.fields) (hvalue : f.isMark = false) (hname : f.name = held.name) :
    f.type = held.type := by
  obtain ⟨hmem, hwire⟩ := List.mem_filter.mp ((distinctBy_sublist _ _).subset hheld)
  have hheldValue : held.isMark = false := by simpa using hwire
  have hkind := h f hf held hmem hname
  simpa [Field.kind, hvalue, hheldValue] using hkind

end TaggedType

/-- The struct of a type in a baked model declares two predicates, an accessor for every mark, a
member for every value and the tag. It declares no name twice exactly when no field of the type is
named like a predicate or the tag. A member has the type of every value of its name. -/
theorem Model.nodup_declarations_iff {config : Config} {ds : List Definition} {t : TaggedType}
    (ht : t ∈ (buildModel config ds).types) :
    (∃ first, t.constructors.head? = some first ∧ ∀ sources, structCode sources t =
      (t.constructors.flatMap fun c => Code.source sources c.source) ++
        Code.braced ("struct " ++ t.name)
          (constructorCode t first ++ Code.blank ++ t.declarations.flatMap Declaration.code)
          ";") ∧
    (∀ name, name ∈ t.declarations.map (·.name) ↔
      name ∈ TaggedType.ownNames ∨ ∃ f ∈ t.fields, f.name = name) ∧
    ((t.declarations.map (·.name)).Nodup ↔ ∀ f ∈ t.fields, f.name ∉ TaggedType.ownNames) ∧
    ∀ held ∈ t.members, ∀ f ∈ t.fields, f.isMark = false → f.name = held.name →
      f.type = held.type := by
  have huniform : t.Uniform := by
    simp only [buildModel, Model.bake, List.map_map, List.mem_map] at ht
    obtain ⟨u, -, rfl⟩ := ht
    exact u.uniform_bake
  obtain ⟨first, rest, hconstructors⟩ :=
    List.exists_cons_of_ne_nil ((derived_buildModel config ds).constructors_ne_nil t ht)
  have hfirst : t.constructors.head? = some first := by rw [hconstructors, List.head?_cons]
  exact ⟨⟨first, hfirst, TaggedType.structCode_eq hfirst⟩,
    fun _ => TaggedType.mem_names_declarations, huniform.nodup_names_iff,
    fun _ hheld _ hf => huniform.type_eq_of_mem_members hheld hf⟩

/-- A field whose name becomes that of the tag. -/
def taggedText : String := "a#1 tl_type:int = A;"

/-- The struct has a number and a tag under one name. -/
theorem nodup_declarations_iff_taggedText :
    ∃ t ∈ (buildModel {} (definitionsOf taggedText)).types,
      ⟨"quint32", "tlType", ";", []⟩ ∈ t.declarations ∧
      ⟨"TLValue", "tlType", ";", []⟩ ∈ t.declarations ∧
      ¬(t.declarations.map (·.name)).Nodup := by
  have hrun : ∃ t ∈ (buildModel {} (definitionsOf taggedText)).types,
      ⟨"quint32", "tlType", ";", []⟩ ∈ t.declarations ∧
      ⟨"TLValue", "tlType", ";", []⟩ ∈ t.declarations ∧
      ∃ f ∈ t.fields, f.name = "tlType" := by decide +kernel
  obtain ⟨t, ht, hnumber, htag, f, hf, hname⟩ := hrun
  obtain ⟨-, -, hnodup, -⟩ := Model.nodup_declarations_iff ht
  refine ⟨t, ht, hnumber, htag, fun hdistinct => ?_⟩
  exact hnodup.mp hdistinct f hf (hname ▸ by decide)

end TypeLang
