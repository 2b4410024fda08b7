import TypeLang.Model.Order
import TypeLang.Proofs.Naming.Template
import TypeLang.Proofs.Schema.Statement

/-!
# Cut edges

What cutting edges makes of a model, said of all edges at once: a field of an owner that holds the
member of an edge by value gets a pointer around that member, behind the vectors it stands in. A
field that got its pointer is behind no edge any more. So edges may be cut in two passes as well as
in one, and neither their order nor how often they are listed matters.
-/
namespace TypeLang

namespace TargetType

/-- The type with a pointer around the name behind its vectors. What a pointer leads to already
stays as it is. -/
def pointed : TargetType → TargetType
  | plain name => pointer (plain name)
  | vector item => vector item.pointed
  | pointer target => pointer target

theorem isIndirect_pointed (type : TargetType) : type.pointed.isIndirect := by
  induction type with
  | vector item ih => exact ih
  | _ => rfl

/-- A name is wrapped in exactly the types that hold it by value. -/
theorem wrap?_plain (name : String) (type : TargetType) :
    wrap? (plain name) type =
      if type.base = name ∧ type.isIndirect = false then some type.pointed else none := by
  induction type with
  | plain target =>
    by_cases htarget : target = name
    · simp [wrap?, base, isIndirect, pointed, htarget]
    · simp [wrap?, base, htarget]
  | vector item ih =>
    simp only [wrap?, reduceCtorEq, if_false, base, isIndirect, pointed, ih]
    by_cases hitem : item.base = name ∧ item.isIndirect = false <;> simp [hitem]
  | pointer target _ => simp [wrap?, isIndirect]

end TargetType

namespace Model

/-! ## Fields behind edges -/

namespace Edge

def memberName (e : Edge) : String := TargetType.generatedName e.member

/-- Whether a field of the type of this name is behind the edge: the type is the owner, and the
field holds the member by value. -/
def reaches (e : Edge) (owner : String) (f : Field) : Bool :=
  owner == e.ownerName && f.type.base == e.memberName && !f.type.isIndirect

variable {e : Edge}

theorem memberType_eq (h : '<' ∉ e.member.toList) : e.memberType = .plain e.memberName :=
  TargetType.ofText_of_bracket_notMem (TargetType.bracket_notMem_generatedName h)

theorem isSome_wrap? (h : '<' ∉ e.member.toList) (f : Field) :
    (e.memberType.wrap? f.type).isSome = e.reaches e.ownerName f := by
  rw [memberType_eq h, TargetType.wrap?_plain, reaches]
  split <;> simp_all

/-- An edge points the fields that it reaches. -/
theorem wrapField_eq (h : '<' ∉ e.member.toList) (f : Field) :
    e.wrapField f =
      if e.reaches e.ownerName f then { f with type := f.type.pointed } else f := by
  rw [wrapField, memberType_eq h, TargetType.wrap?_plain]
  by_cases hreaches : f.type.base = e.memberName ∧ f.type.isIndirect = false
  · simp [reaches, hreaches]
  · have hnot : e.reaches e.ownerName f = false := by
      simpa [reaches] using hreaches
    rw [if_neg hreaches, hnot]
    simp

end Edge

/-- Whether a field of the type of this name is behind one of the edges. -/
def isCut (edges : List Edge) (owner : String) (f : Field) : Bool :=
  edges.any (·.reaches owner f)

/-- The field with a pointer if it is behind one of the edges. -/
def cutField (edges : List Edge) (owner : String) (f : Field) : Field :=
  if isCut edges owner f then { f with type := f.type.pointed } else f

/-- The type with pointers in the fields behind the edges. -/
def cutType (edges : List Edge) (t : TaggedType) : TaggedType :=
  { t with constructors := t.constructors.map fun c =>
      { c with fields := c.fields.map (cutField edges t.name) } }

/-- The model with pointers in the fields behind the edges. -/
def cutAll (m : Model) (edges : List Edge) : Model :=
  { m with
    types := m.types.map (cutType edges)
    typeIndex_eq := by
      rw [List.map_map, m.typeIndex_eq]
      rfl }

/-- The number of fields behind the edges. -/
def cutCount (m : Model) (edges : List Edge) : Nat :=
  (m.types.map fun t => t.fields.countP (isCut edges t.name)).sum

variable {edges others : List Edge} {owner : String} {f : Field} {t : TaggedType}

theorem isCut_append : isCut (edges ++ others) owner f =
    (isCut edges owner f || isCut others owner f) := List.any_append

theorem isCut_congr (h : ∀ e, e ∈ others ↔ e ∈ edges) : isCut others = isCut edges := by
  funext owner f
  rw [Bool.eq_iff_iff, isCut, isCut, List.any_eq_true, List.any_eq_true]
  simp only [h]

theorem isCut_of_isIndirect (h : f.type.isIndirect) : isCut edges owner f = false := by
  simp [isCut, Edge.reaches, h]

theorem isIndirect_cutField (h : isCut edges owner f) :
    (cutField edges owner f).type.isIndirect := by
  rw [cutField, if_pos h]
  exact f.type.isIndirect_pointed

theorem cutField_of_not (h : isCut edges owner f = false) : cutField edges owner f = f := by
  rw [cutField, h]
  simp

/-! ## Cutting in two passes -/

/-- Cutting by two lists of edges is cutting by both at once. -/
theorem cutField_cutField (f : Field) :
    cutField others owner (cutField edges owner f) = cutField (edges ++ others) owner f := by
  cases h : isCut edges owner f with
  | true =>
    -- The first pass left a pointer, which the second one does not look behind.
    rw [cutField_of_not (isCut_of_isIndirect (isIndirect_cutField h)), cutField, cutField,
      isCut_append, h, Bool.true_or]
  | false => rw [cutField_of_not h, cutField, cutField, isCut_append, h, Bool.false_or]

theorem cutType_cutType (t : TaggedType) :
    cutType others (cutType edges t) = cutType (edges ++ others) t := by
  simp only [cutType, List.map_map, Function.comp_def, cutField_cutField]

theorem cutAll_cutAll (m : Model) (edges others : List Edge) :
    (m.cutAll edges).cutAll others = m.cutAll (edges ++ others) := by
  simp only [cutAll, List.map_map, Function.comp_def, cutType_cutType]

theorem fields_cutType (edges : List Edge) (t : TaggedType) :
    (cutType edges t).fields = t.fields.map (cutField edges t.name) := by
  simp [cutType, TaggedType.fields, List.flatMap_map, List.map_flatMap]

theorem countP_isCut_append (fields : List Field) :
    fields.countP (isCut (edges ++ others) owner) = fields.countP (isCut edges owner) +
      (fields.map (cutField edges owner)).countP (isCut others owner) := by
  induction fields with
  | nil => rfl
  | cons f fields ih =>
    simp only [List.map_cons, List.countP_cons, isCut_append, ih]
    cases h : isCut edges owner f with
    | true =>
      rw [isCut_of_isIndirect (isIndirect_cutField h)]
      simp only [Bool.true_or, if_true, Bool.false_eq_true, if_false]
      omega
    | false =>
      rw [cutField_of_not h]
      simp only [Bool.false_or, Bool.false_eq_true, if_false]
      omega

/-- Cuts of one list behind another one add up. -/
theorem cutCount_append (m : Model) (edges others : List Edge) :
    m.cutCount (edges ++ others) = m.cutCount edges + (m.cutAll edges).cutCount others := by
  have hname : ∀ t, (cutType edges t).name = t.name := fun _ => rfl
  simp only [cutCount, cutAll, List.map_map, Function.comp_def, fields_cutType, hname,
    countP_isCut_append]
  induction m.types with
  | nil => rfl
  | cons t types ih =>
    simp only [List.map_cons, List.sum_cons, ih]
    omega

/-! ## One edge after the other -/

variable {e : Edge} {m : Model}

/-- Wrapping by one edge is cutting by it. -/
theorem wrapType_eq (h : '<' ∉ e.member.toList) (t : TaggedType) :
    e.wrapType t = cutType [e] t := by
  rw [Edge.wrapType, cutType]
  split
  · next howner =>
    have hfield : e.wrapField = cutField [e] t.name := by
      funext f
      simp [Edge.wrapField_eq h, cutField, isCut, howner]
    rw [hfield]
  · next howner =>
    have hfield : ∀ f, cutField [e] t.name f = f := fun f =>
      cutField_of_not (by simp [isCut, Edge.reaches, howner])
    simp [funext hfield]

/-- The hits of an edge are the fields that it cuts. -/
theorem hits_eq (h : '<' ∉ e.member.toList) (t : TaggedType) :
    e.hits t = t.fields.countP (isCut [e] t.name) := by
  rw [Edge.hits]
  split
  · next howner =>
    refine List.countP_congr fun f _ => ?_
    simp [Edge.isSome_wrap? h, isCut, howner]
  · next howner =>
    symm
    rw [List.countP_eq_zero]
    simp [isCut, Edge.reaches, howner]

theorem cutAll_nil (m : Model) : m.cutAll [] = m := by
  have hfield : ∀ owner f, cutField [] owner f = f := fun owner f => cutField_of_not rfl
  have htype : ∀ t, cutType [] t = t := fun t => by simp [cutType, funext (hfield t.name)]
  simp [cutAll, funext htype]

theorem cutCount_nil (m : Model) : m.cutCount [] = 0 := by
  have hnone : ∀ t : TaggedType, t.fields.countP (isCut [] t.name) = 0 := by
    intro t
    rw [List.countP_eq_zero]
    simp [isCut]
  simp [cutCount, hnone]

/-- Cutting edges one after the other cuts them all. -/
theorem indirect_eq (m : Model) (h : ∀ e ∈ edges, '<' ∉ e.member.toList) :
    m.indirect edges = (m.cutAll edges, m.cutCount edges) := by
  induction edges using List.reverseRecOn with
  | nil =>
    rw [cutAll_nil, cutCount_nil]
    rfl
  | append_singleton edges e ih =>
    have he := h e (by simp)
    have hcut : (m.cutAll edges).cut e = (m.cutAll edges).cutAll [e] :=
      Model.ext (congrArg (m.cutAll edges).types.map (funext (wrapType_eq he))) rfl rfl
    have hhits : ((m.cutAll edges).types.map e.hits).foldr (· + ·) 0 =
        (m.cutAll edges).cutCount [e] := by
      rw [funext (hits_eq he)]
      rfl
    rw [indirect, List.foldl_append, ← indirect, ih fun e he => h e (by simp [he])]
    simp only [List.foldl_cons, List.foldl_nil, hcut, hhits, cutAll_cutAll, cutCount_append]

/-- No field of an owner holds the member of its edge by value once the edges are cut. -/
theorem notMem_dependencies_cutAll (ht : t ∈ (m.cutAll edges).types) (he : e ∈ edges)
    (howner : t.name = e.ownerName) : e.memberName ∉ t.dependencies := by
  obtain ⟨u, -, rfl⟩ := List.mem_map.mp ht
  have hname : (cutType edges u).name = u.name := rfl
  simp only [TaggedType.dependencies, mem_distinct, List.mem_map, List.mem_filter, fields_cutType,
    Bool.not_eq_true']
  rintro ⟨_, ⟨⟨f, -, rfl⟩, hdirect⟩, hbase⟩
  cases hcut : isCut edges u.name f with
  | true => simp [isIndirect_cutField hcut] at hdirect
  | false =>
    rw [cutField_of_not hcut] at hdirect hbase
    rw [isCut, List.any_eq_false] at hcut
    exact hcut e he (by simp [Edge.reaches, ← hname, howner, hbase, hdirect])

/-- Cutting edges puts a pointer around the member in exactly the fields of owners that hold it by
value, and returns their number. No owner holds the member by value then. Neither the order nor the
repetition of edges matters, and cutting them again rewrites nothing. -/
theorem indirect_cuts (m : Model) (edges : List Edge) (h : ∀ e ∈ edges, '<' ∉ e.member.toList) :
    m.indirect edges = (m.cutAll edges, m.cutCount edges) ∧
    (∀ t ∈ (m.indirect edges).1.types, ∀ e ∈ edges, t.name = e.ownerName →
      e.memberName ∉ t.dependencies) ∧
    (∀ others : List Edge, (∀ e, e ∈ others ↔ e ∈ edges) → m.indirect others = m.indirect edges) ∧
    (m.indirect edges).1.indirect edges = ((m.indirect edges).1, 0) := by
  have hsame : ∀ others : List Edge, (∀ e, e ∈ others ↔ e ∈ edges) →
      m.cutAll others = m.cutAll edges ∧ m.cutCount others = m.cutCount edges := by
    intro others hmem
    have hcut := isCut_congr hmem
    constructor
    · have hfield : cutField others = cutField edges := by
        funext owner f
        rw [cutField, cutField, hcut]
      have htype : cutType others = cutType edges := by
        funext t
        rw [cutType, cutType, hfield]
      exact Model.ext (congrArg m.types.map htype) rfl rfl
    · rw [cutCount, cutCount, hcut]
  refine ⟨indirect_eq m h, ?_, ?_, ?_⟩
  · rw [indirect_eq m h]
    exact fun t ht e he howner => notMem_dependencies_cutAll ht he howner
  · intro others hmem
    rw [indirect_eq m h, indirect_eq m fun e he => h e ((hmem e).mp he), (hsame others hmem).1,
      (hsame others hmem).2]
  · -- A second pass is a longer list of the same edges.
    obtain ⟨hall, hcount⟩ := hsame (edges ++ edges) (by simp)
    rw [indirect_eq m h, indirect_eq _ h, cutAll_cutAll, hall]
    rw [cutCount_append] at hcount
    have hzero : (m.cutAll edges).cutCount edges = 0 := by omega
    rw [hzero]

/-- Texts that hold themselves and pages that hold texts, behind vectors of vectors too. -/
def pageText : String :=
  "plain#1 text:string = RichText;\nbold#2 text:RichText = RichText;\n" ++
    "concat#3 texts:Vector<Vector<RichText>> = RichText;\npage#4 title:RichText next:Page = Page;"

/-- One edge of texts under two spellings, one of pages, and one whose owner the schema lacks. -/
def pageEdges : List Edge :=
  [⟨"RichText", "RichText"⟩, ⟨"rich_text", "richText"⟩, ⟨"Page", "RichText"⟩, ⟨"Block", "Page"⟩]

def pageModel : Model := Model.ofDefinitions (definitionsOf pageText)

/-- Three fields get their pointers, the innermost of a vector of vectors among them. -/
theorem indirect_cuts_pages :
    (pageModel.indirect pageEdges).2 = 3 ∧
    ((pageModel.indirect pageEdges).1.types.flatMap (·.fields)).map (·.type.text) =
      ["QString", "TLPtr<TLRichText>", "TLVector<TLVector<TLPtr<TLRichText>>>",
        "TLPtr<TLRichText>", "TLPage"] ∧
    pageModel.indirect pageEdges.reverse = pageModel.indirect pageEdges ∧
    ((pageModel.indirect pageEdges).1.indirect pageEdges).2 = 0 := by
  have hrun : pageModel.cutCount pageEdges = 3 ∧
      ((pageModel.cutAll pageEdges).types.flatMap (·.fields)).map (·.type.text) =
        ["QString", "TLPtr<TLRichText>", "TLVector<TLVector<TLPtr<TLRichText>>>",
          "TLPtr<TLRichText>", "TLPage"] := by decide +kernel
  obtain ⟨hcut, -, horder, hagain⟩ := pageModel.indirect_cuts pageEdges (by decide)
  refine ⟨?_, ?_, horder _ (by simp), congrArg (·.2) hagain⟩
  · simp only [hcut, hrun.1]
  · simp only [hcut, hrun.2]

end Model

end TypeLang
