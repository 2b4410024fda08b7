import TypeLang.Model.Reach
import TypeLang.Proofs.Model.Derived
import TypeLang.Proofs.Model.Lookup
import TypeLang.Proofs.Naming.Unbroken
import TypeLang.Proofs.Schema.Unbroken

/-!
# Models on one line

No name, type or source in the model of a schema has a line feed: names come from the definitions,
and baking makes new ones of old names, words of types and numerals.
-/
namespace TypeLang

/-- Every text of a field is on one line. -/
structure Field.IsUnbroken (f : Field) : Prop where
  name : Unbroken f.name
  type : Unbroken f.type.base
  gate : ∀ g ∈ f.gate, Unbroken g.member

structure Constructor.IsUnbroken (c : Constructor) : Prop where
  name : Unbroken c.name
  fields : ∀ f ∈ c.fields, f.IsUnbroken
  source : ∀ source ∈ c.source, Document.IsStatement source.toList

structure TaggedType.IsUnbroken (t : TaggedType) : Prop where
  name : Unbroken t.name
  constructors : ∀ c ∈ t.constructors, c.IsUnbroken

structure Method.IsUnbroken (m : Method) : Prop where
  name : Unbroken m.name
  result : Unbroken m.result.base
  fields : ∀ f ∈ m.fields, f.IsUnbroken
  source : ∀ source ∈ m.source, Document.IsStatement source.toList

structure GroupEntry.IsUnbroken (e : GroupEntry) : Prop where
  tag : Unbroken e.tag
  source : ∀ source ∈ e.source, Document.IsStatement source.toList

/-- Every text of a model is on one line. -/
structure Model.IsUnbroken (m : Model) : Prop where
  types : ∀ t ∈ m.types, t.IsUnbroken
  methods : ∀ method ∈ m.methods, method.IsUnbroken
  groups : ∀ group ∈ m.groups, ∀ e ∈ group.entries, e.IsUnbroken

/-! ## The model of the definitions -/

theorem Field.isUnbroken_mk {name schemaType : String} {type : TargetType} {gate : Option FieldGate}
    (hname : Unbroken name) (htype : Unbroken type.base) (hgate : ∀ g ∈ gate, Unbroken g.member) :
    (Field.mk name type schemaType gate).IsUnbroken := ⟨hname, htype, hgate⟩

/-- A parameter on one line becomes a field on one line. -/
theorem Field.unbroken_ofParameter {p : Parameter} (h : Unbroken p.text) :
    (Field.ofParameter p).IsUnbroken := by
  simp only [Parameter.text, unbroken_append] at h
  have hname := Naming.unbroken_member h.1.1
  simp only [Field.ofParameter]
  split
  · have hword : Unbroken "quint32" := by decide
    exact isUnbroken_mk hname (by rwa [TargetType.base]) (by simp)
  · next type gate htype =>
    rw [htype] at h
    cases gate with
    | none => exact isUnbroken_mk hname (TargetType.unbroken_ofTypeExpr h.2) (by simp)
    | some g =>
      simp only [ParameterType.text, unbroken_append] at h
      refine isUnbroken_mk hname (TargetType.unbroken_ofTypeExpr h.2.2) fun renamed hrenamed => ?_
      simp only [Option.map_some, Option.mem_def, Option.some.injEq] at hrenamed
      subst hrenamed
      dsimp only
      exact Naming.unbroken_member h.2.1.1.1.1

namespace Definition.IsUnbroken

variable {d : Definition}

theorem entityName (h : d.IsUnbroken) : Unbroken d.entityName := by
  rw [Definition.entityName]
  exact Naming.unbroken_camel h.name

theorem fields (h : d.IsUnbroken) : ∀ f ∈ d.parameters.map Field.ofParameter, f.IsUnbroken := by
  intro f hf
  obtain ⟨p, hp, rfl⟩ := List.mem_map.mp hf
  exact Field.unbroken_ofParameter (h.parameters p hp)

theorem constructor (h : d.IsUnbroken) : (Constructor.ofDefinition d).IsUnbroken := by
  constructor <;> simp only [Constructor.ofDefinition]
  · exact h.entityName
  · exact h.fields
  · exact h.source

theorem method (h : d.IsUnbroken) : (Method.ofDefinition d).IsUnbroken := by
  constructor <;> simp only [Method.ofDefinition]
  · exact h.entityName
  · exact TargetType.unbroken_ofTypeExpr h.result
  · exact h.fields
  · exact h.source

theorem groupEntry (h : d.IsUnbroken) : (GroupEntry.ofDefinition d).IsUnbroken := by
  refine ⟨?_, h.source⟩
  simp only [GroupEntry.ofDefinition, Definition.tag]
  exact Naming.unbroken_tag h.entityName

end Definition.IsUnbroken

namespace Model

variable {ds : List Definition} {m : Model}

/-- Definitions on one line each have a model on one line. -/
theorem unbroken_ofDefinitions (hds : ∀ d ∈ ds, d.IsUnbroken) :
    (ofDefinitions ds).IsUnbroken := by
  have hkept : ∀ d ∈ kept ds, d.IsUnbroken := fun d hd => hds d ((kept_sublist ds).subset hd)
  constructor
  · intro t ht
    constructor
    · obtain ⟨d, hd, -, hname, -⟩ := (regroups_ofDefinitions ds).exists_first ht
      have hresult := (hkept d hd).result
      rw [hname]
      exact TargetType.unbroken_text.mpr (TargetType.unbroken_ofTypeExpr hresult)
    · intro c hc
      obtain ⟨d, hd, rfl⟩ := exists_definition_of_mem_constructors ht hc
      exact (hds d hd).constructor
  · intro method hmethod
    obtain ⟨d, hd, -, rfl⟩ := mem_methods_ofDefinitions hmethod
    exact (hkept d hd).method
  · intro group hgroup e he
    have hlisted := List.mem_flatMap.mpr ⟨group, hgroup, he⟩
    rw [(regroups_ofDefinitions ds).entries] at hlisted
    obtain ⟨d, hd, rfl⟩ := List.mem_map.mp hlisted
    exact (hkept d hd).groupEntry

/-! ## Cutting edges -/

theorem Edge.unbroken_wrapField (e : Edge) {f : Field} (h : f.IsUnbroken) :
    (e.wrapField f).IsUnbroken := by
  refine ⟨h.name, ?_, h.gate⟩
  simp only [Edge.wrapField]
  cases hwrap : e.memberType.wrap? f.type with
  | none => exact h.type
  | some wrapped =>
    rw [Option.getD_some, TargetType.base_of_wrap? hwrap]
    exact h.type

/-- Cutting an edge breaks no line. -/
theorem Edge.unbroken_wrapType (e : Edge) {t : TaggedType} (h : t.IsUnbroken) :
    (e.wrapType t).IsUnbroken := by
  constructor
  · simp only [Edge.wrapType]
    split <;> exact h.name
  · intro c hc
    obtain ⟨b, hb, rfl | rfl⟩ := mem_constructors_wrapType hc
    · exact h.constructors c hb
    · have hfields := (h.constructors b hb).fields
      refine ⟨(h.constructors b hb).name, ?_, (h.constructors b hb).source⟩
      intro f hf
      obtain ⟨g, hg, rfl⟩ := List.mem_map.mp hf
      exact e.unbroken_wrapField (hfields g hg)

/-! ## Baking -/

open Baking

theorem unbroken_renameField {rename : Renaming} {fields : List Field}
    (hrename : ∀ f ∈ fields, ∀ name ∈ rename f.name f.kind, Unbroken name)
    (hfields : ∀ f ∈ fields, f.IsUnbroken) {f : Field} (hf : f ∈ fields) :
    (renameField rename fields f).IsUnbroken := by
  refine ⟨?_, (hfields f hf).type, ?_⟩
  · simp only [renameField]
    cases hname : rename f.name f.kind with
    | none => exact (hfields f hf).name
    | some name => exact hrename f hf name hname
  · intro renamed hrenamed
    simp only [renameField, Option.mem_def, Option.map_eq_some_iff] at hrenamed
    obtain ⟨g, hg, rfl⟩ := hrenamed
    cases hword : renamedWord? rename fields g.member with
    | none => exact (hfields f hf).gate g hg
    | some name =>
      -- The new name of a word is the one that its own field got.
      obtain ⟨word, hmem, hname⟩ := List.exists_of_findSome?_eq_some hword
      split at hname
      · exact hrename word hmem name hname
      · cases hname

/-- A renaming to names on one line breaks no line. -/
theorem unbroken_renameType {rename : List Field → Renaming} {t : TaggedType} (h : t.IsUnbroken)
    (hrename : ∀ c ∈ t.constructors, ∀ f ∈ c.fields, ∀ name ∈ rename c.fields f.name f.kind,
      Unbroken name) : (renameType rename t).IsUnbroken := by
  refine ⟨h.name, fun c hc => ?_⟩
  obtain ⟨b, hb, rfl⟩ := mem_constructors_renameType hc
  have hold := h.constructors b hb
  refine ⟨hold.name, fun renamed hrenamed => ?_, hold.source⟩
  obtain ⟨f, hf, rfl⟩ := List.mem_map.mp hrenamed
  exact unbroken_renameField (hrename b hb) hold.fields hf

theorem unbroken_appendWords {ambiguous : List String} {fields : List Field}
    (hfields : ∀ f ∈ fields, f.IsUnbroken) {f : Field} (hf : f ∈ fields) {name : String}
    (h : appendWords ambiguous fields f.name f.kind = some name) : Unbroken name := by
  simp only [appendWords] at h
  split at h
  · split at h
    · cases h
    · cases h
      refine unbroken_append.mpr ⟨(hfields f hf).name, ?_⟩
      simp only [typeOf?]
      cases hlast : fields.reverse.find? (·.name == f.name) with
      | none =>
        have hempty : Unbroken "" := by decide
        exact hempty
      | some last =>
        have hmem := List.mem_reverse.mp (List.mem_of_find?_eq_some hlast)
        exact TargetType.unbroken_disambiguation (hfields last hmem).type f.name
  · cases h

/-- Numbered names are names with numerals. -/
theorem exists_of_mem_numberKinds {taken : List String} {rest : List (String × MemberKind)}
    {entry : (String × MemberKind) × String} (h : entry ∈ numberKinds taken rest) :
    ∃ n : Nat, entry.2 = entry.1.1 ++ n.repr := by
  induction rest generalizing taken with
  | nil => simp [numberKinds] at h
  | cons first rest ih =>
    rcases List.mem_cons.mp h with rfl | h
    · exact ⟨_, rfl⟩
    · exact ih h

theorem unbroken_numberRest {fields : List Field} {f : Field} (hf : f.IsUnbroken) {name : String}
    (h : numberRest fields f.name f.kind = some name) : Unbroken name := by
  simp only [numberRest] at h
  obtain ⟨front, back, hentries, -⟩ := List.lookup_eq_some_iff.mp h
  have hmem : ((f.name, f.kind), name) ∈ numberKinds (namesOf fields)
      ((ambiguousNames fields).flatMap fun name =>
        ((kindsOf fields name).drop 1).map (name, ·)) := by
    rw [hentries]
    simp
  obtain ⟨n, hname⟩ := exists_of_mem_numberKinds hmem
  simp only at hname
  rw [hname]
  exact unbroken_append.mpr ⟨hf.name, unbroken_repr n⟩

/-- Baking breaks no line. -/
theorem unbroken_bake {t : TaggedType} (h : t.IsUnbroken) : t.bake.1.IsUnbroken := by
  have hworded : (renameType (appendWords (ambiguousNames t.fields)) t).IsUnbroken := by
    refine unbroken_renameType h ?_
    intro c hc f hf name hname
    exact unbroken_appendWords (h.constructors c hc).fields hf hname
  simp only [TaggedType.bake]
  refine unbroken_renameType hworded ?_
  intro c hc f hf name hname
  exact unbroken_numberRest ((hworded.constructors c hc).fields f hf) hname

/-- Every text of a model is on one line when those of the definitions are. -/
theorem Derived.unbroken (hds : ∀ d ∈ ds, d.IsUnbroken) (h : Derived ds m) : m.IsUnbroken := by
  have hmodel := unbroken_ofDefinitions hds
  refine ⟨?_, ?_, ?_⟩
  · exact h.forall_types hmodel.types (fun e _ ht => e.unbroken_wrapType ht)
      fun _ ht => unbroken_bake ht
  · rw [h.methods_eq]
    exact hmodel.methods
  · rw [h.groups_eq]
    exact hmodel.groups

/-! ## Walks -/

variable {closed : List String} {r : Reach} {todo : List TargetType}

theorem IsUnbroken.heldBy (hm : m.IsUnbroken) (name : String) :
    ∀ type ∈ Reach.heldBy m closed name, Unbroken type.base := by
  intro type htype
  simp only [Reach.heldBy] at htype
  split at htype
  · simp at htype
  · cases ht : m.type? name with
    | none => simp [ht] at htype
    | some t =>
      simp only [ht, Option.map_some, Option.getD_some, wireFields, List.mem_map,
        List.mem_filter, TaggedType.fields, List.mem_flatMap] at htype
      obtain ⟨f, ⟨⟨c, hc, hf⟩, -⟩, rfl⟩ := htype
      have htypes := hm.types t (mem_types_of_type? ht).1
      exact ((htypes.constructors c hc).fields f hf).type

/-- A walk from types on one line meets only such vectors. -/
theorem IsUnbroken.walk (hm : m.IsUnbroken) (hr : ∀ vector ∈ r.vectors, Unbroken vector.base)
    (htodo : ∀ type ∈ todo, Unbroken type.base) :
    ∀ vector ∈ (Reach.walk m closed r todo).vectors, Unbroken vector.base := by
  fun_induction Reach.walk m closed r todo with
  | case1 => exact hr
  | case2 r item todo ih =>
    have hitem := htodo (.vector item) List.mem_cons_self
    apply ih
    · intro vector hvector
      simp only [Reach.addVector] at hvector
      split at hvector
      · exact hr vector hvector
      · rcases List.mem_cons.mp hvector with rfl | hvector
        · exact hitem
        · exact hr vector hvector
    · intro type htype
      rcases List.mem_cons.mp htype with rfl | htype
      · exact hitem
      · exact htodo type (List.mem_cons_of_mem _ htype)
  | case3 r target todo ih =>
    apply ih hr
    intro type htype
    rcases List.mem_cons.mp htype with rfl | htype
    · exact htodo (.pointer _) List.mem_cons_self
    · exact htodo type (List.mem_cons_of_mem _ htype)
  | case4 r name todo _ ih =>
    exact ih hr fun type htype => htodo type (List.mem_cons_of_mem _ htype)
  | case5 r name todo _ _ ih =>
    exact ih hr fun type htype => htodo type (List.mem_cons_of_mem _ htype)
  | case6 r name todo _ _ ih =>
    apply ih hr
    intro type htype
    rcases List.mem_append.mp htype with htype | htype
    · exact hm.heldBy name type htype
    · exact htodo type (List.mem_cons_of_mem _ htype)

theorem IsUnbroken.reach (hm : m.IsUnbroken) (closed : List String)
    (hroots : ∀ type ∈ todo, Unbroken type.base) :
    ∀ vector ∈ (m.reach closed todo).vectors, Unbroken vector.base :=
  hm.walk (by simp) hroots

end Model

end TypeLang
