import Mathlib.Data.List.Forall2
import TypeLang.Proofs.Model.Gates
import TypeLang.Proofs.Model.Lookup
import TypeLang.Wire.Encode

/-!
# Redrafts

What cutting edges and baking leave alone. They put pointers into types and give members other
names, but every field keeps its place, its type up to pointers, and its gate: the gate looks at the
same bit of the same flags word, whatever the word is called now.
-/
namespace TypeLang

namespace TargetType

variable {type other : TargetType}

def direct : TargetType → TargetType
  | plain name => plain name
  | vector item => vector item.direct
  | pointer target => target.direct

/-- Wrapping a type does not change it behind the pointers. -/
theorem direct_of_wrap? {member wrapped : TargetType} (h : wrap? member type = some wrapped) :
    wrapped.direct = type.direct := by
  induction type generalizing wrapped with
  | vector item ih =>
    simp only [wrap?] at h
    split at h
    · next hmember =>
      cases h
      rw [← hmember]
      rfl
    · obtain ⟨inner, hinner, rfl⟩ := Option.map_eq_some_iff.mp h
      rw [direct, direct, ih hinner]
  | _ =>
    simp only [wrap?] at h
    split at h
    · next hmember =>
      cases h
      rw [← hmember]
      rfl
    · cases h

theorem behindPointers_of_direct_eq_plain {name : String} (h : type.direct = plain name) :
    type.behindPointers = plain name := by
  induction type with
  | pointer target ih => exact ih h
  | plain _ => exact h
  | vector _ _ => cases h

/-- A type that is a vector without pointers is one behind them. -/
theorem exists_of_direct_eq_vector {base : TargetType} (h : type.direct = vector base) :
    ∃ item, type.behindPointers = vector item ∧ item.direct = base := by
  induction type with
  | pointer target ih => exact ih h
  | plain _ => cases h
  | vector item _ =>
    cases h
    exact ⟨item, rfl, rfl⟩

/-- Types that are one up to pointers are of one name, or of items that are one up to pointers. -/
theorem behindPointers_cases (h : type.direct = other.direct) :
    (∃ name, type.behindPointers = plain name ∧ other.behindPointers = plain name) ∨
      ∃ item item', type.behindPointers = vector item ∧ other.behindPointers = vector item' ∧
        item.direct = item'.direct := by
  induction type with
  | pointer target ih => exact ih h
  | plain name => exact .inl ⟨name, rfl, behindPointers_of_direct_eq_plain h.symm⟩
  | vector item _ =>
    obtain ⟨item', hother, hitem⟩ := exists_of_direct_eq_vector h.symm
    exact .inr ⟨item, item', rfl, hother, hitem.symm⟩

theorem behindPointers_eq_plain {name : String} (h : type.direct = other.direct)
    (hbase : type.behindPointers = plain name) : other.behindPointers = plain name := by
  rcases behindPointers_cases h with ⟨base, hplain, hother⟩ | ⟨item, item', hvector, -, -⟩
  · rw [hother, ← hplain, hbase]
  · rw [hbase] at hvector
    cases hvector

theorem exists_behindPointers_eq_vector {item : TargetType} (h : type.direct = other.direct)
    (hbase : type.behindPointers = vector item) :
    ∃ item', other.behindPointers = vector item' ∧ item.direct = item'.direct := by
  rcases behindPointers_cases h with ⟨name, hplain, -⟩ | ⟨first, item', hvector, hother, hitem⟩
  · rw [hbase] at hplain
    cases hplain
  · obtain rfl := vector.inj (hbase.symm.trans hvector)
    exact ⟨item', hother, hitem⟩

end TargetType

/-! ## Fields -/

/-- A step that keeps of each field what is on the wire. Gates follow the flags words that they look
at. -/
structure Field.Redraft (fields : List Field) (step : Field → Field) : Prop where
  schemaType : ∀ f ∈ fields, (step f).schemaType = f.schemaType
  direct : ∀ f ∈ fields, (step f).type.direct = f.type.direct
  gate : ∀ f ∈ fields, ∀ w ∈ fields, w.isWord → ∀ g ∈ f.gate, g.member = w.name →
    (step f).gate = some ⟨(step w).name, g.bit⟩
  ungated : ∀ f ∈ fields, f.gate = none → (step f).gate = none

namespace Field

variable {fields : List Field} {step : Field → Field} {f : Field}

theorem Redraft.isWord (h : Redraft fields step) (hf : f ∈ fields) :
    (step f).isWord = f.isWord := by
  rw [Field.isWord, Field.isWord, h.schemaType f hf]

/-- A field is ungated on both sides, or gated by the same bit of the same word. -/
theorem Redraft.gate_cases (h : Redraft fields step) (hgated : Gated fields) (hf : f ∈ fields) :
    (f.gate = none ∧ (step f).gate = none) ∨ ∃ w ∈ fields, ∃ bit,
      f.gate = some ⟨w.name, bit⟩ ∧ (step f).gate = some ⟨(step w).name, bit⟩ := by
  cases hgate : f.gate with
  | none => exact .inl ⟨rfl, h.ungated f hf hgate⟩
  | some g =>
    obtain ⟨w, hw, hword, hname⟩ := hgated.exists_word hf hgate
    exact .inr ⟨w, hw, g.bit, by rw [hname], h.gate f hf w hw hword g hgate hname.symm⟩

theorem redraft_id (fields : List Field) : Redraft fields id where
  schemaType _ _ := rfl
  direct _ _ := rfl
  gate f _ w _ _ g hg hmember := by
    rw [id, id, ← hmember]
    exact hg
  ungated _ _ h := h

/-- A redraft of a redraft is one. -/
theorem Redraft.comp {next : Field → Field} (h : Redraft fields step)
    (hnext : Redraft (fields.map step) next) : Redraft fields (next ∘ step) where
  schemaType f hf := by
    rw [Function.comp_apply, hnext.schemaType _ (List.mem_map_of_mem hf), h.schemaType f hf]
  direct f hf := by
    rw [Function.comp_apply, hnext.direct _ (List.mem_map_of_mem hf), h.direct f hf]
  gate f hf w hw hword g hg hmember := by
    have hstep := h.gate f hf w hw hword g hg hmember
    have hword' : (step w).isWord := by rw [h.isWord hw, hword]
    exact hnext.gate _ (List.mem_map_of_mem hf) _ (List.mem_map_of_mem hw) hword'
      ⟨(step w).name, g.bit⟩ hstep rfl
  ungated f hf hnone := hnext.ungated _ (List.mem_map_of_mem hf) (h.ungated f hf hnone)

theorem Redraft.isSome_gate (h : Redraft fields step) (hgated : Gated fields) (hf : f ∈ fields) :
    (step f).gate.isSome = f.gate.isSome := by
  rcases h.gate_cases hgated hf with ⟨hnone, hnone'⟩ | ⟨w, -, bit, hgate, hgate'⟩
  · rw [hnone, hnone']
  · rw [hgate, hgate', Option.isSome_some, Option.isSome_some]

theorem Redraft.isMark (h : Redraft fields step) (hgated : Gated fields) (hf : f ∈ fields) :
    (step f).isMark = f.isMark := by
  rw [Field.isMark, Field.isMark, h.schemaType f hf, h.isSome_gate hgated hf]

/-- Cutting an edge redrafts the fields. -/
theorem redraft_wrapField (e : Model.Edge) (fields : List Field) :
    Redraft fields e.wrapField where
  schemaType _ _ := rfl
  direct f _ := by
    simp only [Model.Edge.wrapField]
    cases hwrap : e.memberType.wrap? f.type with
    | none => rfl
    | some wrapped => rw [Option.getD_some, TargetType.direct_of_wrap? hwrap]
  gate f _ w _ _ g hg hmember := by
    simp only [Model.Edge.wrapField, ← hmember]
    exact hg
  ungated _ _ h := h

/-- A gate is renamed with its flags word. -/
theorem redraft_renameField (rename : Baking.Renaming) (h : Gated fields) :
    Redraft fields (Baking.renameField rename fields) where
  schemaType _ _ := rfl
  direct _ _ := rfl
  gate f _ w hw hword g hg hmember := by
    simp only [Baking.renameField, Option.mem_def.mp hg, Option.map_some, hmember,
      Model.renamedWord?_of_mem h hw hword]
  ungated f _ hnone := by simp [Baking.renameField, hnone]

end Field

/-! ## Models -/

/-- A constructor with the fields of another one, redrafted. -/
structure Constructor.Redraft (c c' : Constructor) : Prop where
  id : c'.id = c.id
  gated : Field.Gated c.fields
  gated' : Field.Gated c'.fields
  fields : ∃ step, Field.Redraft c.fields step ∧ c'.fields = c.fields.map step

/-- A type with the constructors of another one, redrafted. -/
structure TaggedType.Redraft (t t' : TaggedType) : Prop where
  name : t'.name = t.name
  constructors : List.Forall₂ Constructor.Redraft t.constructors t'.constructors

/-- A model with the types of another one, redrafted. -/
def Model.Redraft (m m' : Model) : Prop := List.Forall₂ TaggedType.Redraft m.types m'.types

theorem Constructor.Redraft.map {c c' : Constructor} (h : c.Redraft c') {step : Field → Field}
    (hgated : Field.Gated (c'.fields.map step)) (hstep : Field.Redraft c'.fields step) :
    c.Redraft { c' with fields := c'.fields.map step } where
  id := h.id
  gated := h.gated
  gated' := hgated
  fields := by
    obtain ⟨first, hfirst, heq⟩ := h.fields
    refine ⟨step ∘ first, hfirst.comp (heq ▸ hstep), ?_⟩
    rw [heq, List.map_map]

namespace TaggedType

theorem redraft_self {t : TaggedType} (h : ∀ c ∈ t.constructors, Field.Gated c.fields) :
    t.Redraft t where
  name := rfl
  constructors := List.forall₂_same.mpr fun c hc =>
    ⟨rfl, h c hc, h c hc, id, Field.redraft_id c.fields, (List.map_id c.fields).symm⟩

variable {t t' : TaggedType}

theorem Redraft.wrapType (h : t.Redraft t') (e : Model.Edge) : t.Redraft (e.wrapType t') := by
  simp only [Model.Edge.wrapType]
  split
  · refine ⟨h.name, List.forall₂_map_right_iff.mpr (h.constructors.imp fun c c' hc => ?_)⟩
    exact hc.map (e.gated_wrapField hc.gated') (Field.redraft_wrapField e c'.fields)
  · exact h

theorem Redraft.renameType (h : t.Redraft t') (rename : List Field → Baking.Renaming) :
    t.Redraft (Baking.renameType rename t') := by
  refine ⟨h.name, List.forall₂_map_right_iff.mpr (h.constructors.imp fun c c' hc => ?_)⟩
  exact hc.map (Model.gated_renameFields hc.gated') (Field.redraft_renameField _ hc.gated')

theorem Redraft.bake (h : t.Redraft t') : t.Redraft t'.bake.1 :=
  Model.bake_of_renameType (P := fun u => t.Redraft u) (fun rename _ hu => hu.renameType rename) h

end TaggedType

namespace Model

variable {m m' : Model}

/-- Every model of a schema is a redraft of the one read off the definitions. -/
theorem Derived.redraft {ds : List Definition} (hds : Parsed ds) (h : Derived ds m) :
    (Model.ofDefinitions ds).Redraft m := by
  induction h with
  | ofDefinitions =>
    exact List.forall₂_same.mpr fun t ht =>
      TaggedType.redraft_self (Derived.ofDefinitions.gated_constructor hds t ht)
  | cut e _ ih => exact List.forall₂_map_right_iff.mpr (ih.imp fun _ _ ht => ht.wrapType e)
  | bake _ ih =>
    simp only [Model.bake, List.map_map, Redraft]
    exact List.forall₂_map_right_iff.mpr (ih.imp fun _ _ ht => ht.bake)

/-! ## Looking constructors up -/

/-- The constructor that an object of a type is read and written with. -/
def findConstructor (m : Model) (name : String) (id : UInt32) : Except WireError Constructor :=
  match m.type? name with
  | none => .error (.unknownType name)
  | some t =>
    match t.constructor? id with
    | none => .error (.unexpectedConstructor id)
    | some c => .ok c

/-- Searches that go by what two lists have in common find the same places. -/
theorem rel_find? {α β : Type} {R : α → β → Prop} {p : α → Bool} {q : β → Bool} {as : List α}
    {bs : List β} (h : List.Forall₂ R as bs) (hpq : ∀ a b, R a b → p a = q b) :
    Option.Rel R (as.find? p) (bs.find? q) := by
  induction h with
  | nil => exact .none
  | @cons a b as bs hab _ ih =>
    rw [List.find?_cons, List.find?_cons, ← hpq a b hab]
    split
    · exact .some hab
    · exact ih

/-- In a redraft the same constructors are found, or the same is missing. -/
theorem Redraft.findConstructor (h : m.Redraft m') (name : String) (id : UInt32) :
    (∃ e, m.findConstructor name id = .error e ∧ m'.findConstructor name id = .error e) ∨
      ∃ c c', m.findConstructor name id = .ok c ∧ m'.findConstructor name id = .ok c' ∧
        c.Redraft c' := by
  have htype : Option.Rel TaggedType.Redraft (m.type? name) (m'.type? name) := by
    rw [type?_eq_find?, type?_eq_find?]
    exact rel_find? h fun t t' ht => by rw [ht.name]
  simp only [Model.findConstructor]
  generalize m.type? name = t at htype
  generalize m'.type? name = t' at htype
  cases htype with
  | none => exact .inl ⟨_, rfl, rfl⟩
  | @some t t' ht =>
    have hconstructor : Option.Rel Constructor.Redraft (t.constructor? id) (t'.constructor? id) :=
      rel_find? ht.constructors fun c c' hc => by rw [hc.id]
    simp only
    generalize t.constructor? id = c at hconstructor
    generalize t'.constructor? id = c' at hconstructor
    cases hconstructor with
    | none => exact .inl ⟨_, rfl, rfl⟩
    | some hc => exact .inr ⟨_, _, rfl, rfl, hc⟩

end Model

end TypeLang
