import TypeLang.Generation.Config
import TypeLang.Proofs.Model.Drafting

/-!
# Derived models

The models that a list of definitions has: the one read off the definitions, and what cutting edges
and baking make of it, in any order and as often as one likes. Both work on one type at a time, so
an invariant of derived models is an invariant of types, kept by the two steps.
-/
namespace TypeLang

theorem distinctFrom_sublist {α β : Type} [DecidableEq β] (key : α → β) (seen : List β)
    (as : List α) : (distinctFrom key seen as).Sublist as := by
  induction as generalizing seen with
  | nil => exact .refl []
  | cons a as ih =>
    simp only [distinctFrom]
    split
    · exact (ih seen).cons a
    · exact (ih _).cons_cons a

theorem distinctBy_sublist {α β : Type} [DecidableEq β] (key : α → β) (as : List α) :
    (distinctBy key as).Sublist as := distinctFrom_sublist key [] as

namespace Model

/-- The models of a list of definitions. -/
inductive Derived (ds : List Definition) : Model → Prop
  | ofDefinitions : Derived ds (ofDefinitions ds)
  | cut {m : Model} (e : Edge) : Derived ds m → Derived ds (m.cut e)
  | bake {m : Model} : Derived ds m → Derived ds m.bake.1

variable {ds : List Definition} {m : Model}

theorem Derived.indirect (edges : List Edge) (h : Derived ds m) :
    Derived ds (m.indirect edges).1 := by
  refine List.foldlRecOn (motive := fun state : Model × Nat => Derived ds state.1) edges _ h ?_
  rintro ⟨m, n⟩ hm e -
  exact hm.cut e

/-- The model that code is generated from is a derived one. -/
theorem derived_buildModel (config : Config) (ds : List Definition) :
    Derived ds (buildModel config ds) :=
  (Derived.ofDefinitions.indirect config.indirections).bake

/-- A property of types that holds of those read off the definitions, and that cutting and baking
keep, holds of the types of every derived model. -/
theorem Derived.forall_types {P : TaggedType → Prop}
    (hdefinitions : ∀ t ∈ (Model.ofDefinitions ds).types, P t)
    (hcut : ∀ (e : Edge) (t : TaggedType), P t → P (e.wrapType t))
    (hbake : ∀ t : TaggedType, P t → P t.bake.1) (h : Derived ds m) : ∀ t ∈ m.types, P t := by
  induction h with
  | ofDefinitions => exact hdefinitions
  | cut e _ ih =>
    intro t ht
    obtain ⟨u, hu, rfl⟩ := List.mem_map.mp ht
    exact hcut e u (ih u hu)
  | bake _ ih =>
    intro t ht
    simp only [Model.bake, List.map_map, List.mem_map] at ht
    obtain ⟨u, hu, rfl⟩ := ht
    exact hbake u (ih u hu)

/-- Cutting and baking leave the methods alone. -/
theorem Derived.methods_eq (h : Derived ds m) : m.methods = (Model.ofDefinitions ds).methods := by
  induction h with
  | ofDefinitions => rfl
  | cut e _ ih => exact ih
  | bake _ ih => exact ih

theorem Derived.groups_eq (h : Derived ds m) : m.groups = (Model.ofDefinitions ds).groups := by
  induction h with
  | ofDefinitions => rfl
  | cut e _ ih => exact ih
  | bake _ ih => exact ih

/-! ## Names of types -/

@[simp] theorem name_bake (t : TaggedType) : t.bake.1.name = t.name := rfl

/-- The types have different names: they are grouped by name, and no step renames a type. -/
theorem Derived.nodup_type_names (h : Derived ds m) : (m.types.map (·.name)).Nodup := by
  induction h with
  | ofDefinitions => exact (regroups_ofDefinitions ds).nodup_names
  | cut e _ ih => simpa [Model.cut, Function.comp_def] using ih
  | bake _ ih => simpa [Model.bake, Function.comp_def] using ih

/-! ## Steps on the constructors of a type -/

theorem mem_constructors_wrapType {e : Edge} {t : TaggedType} {c : Constructor}
    (h : c ∈ (e.wrapType t).constructors) : ∃ b ∈ t.constructors,
      c = b ∨ c = { b with fields := b.fields.map e.wrapField } := by
  simp only [Edge.wrapType] at h
  split at h
  · obtain ⟨b, hb, rfl⟩ := List.mem_map.mp h
    exact ⟨b, hb, .inr rfl⟩
  · exact ⟨c, h, .inl rfl⟩

theorem mem_constructors_renameType {rename : List Field → Baking.Renaming} {t : TaggedType}
    {c : Constructor} (h : c ∈ (Baking.renameType rename t).constructors) : ∃ b ∈ t.constructors,
      c = { b with fields := Baking.renameFields (rename b.fields) b.fields } := by
  obtain ⟨b, hb, rfl⟩ := List.mem_map.mp h
  exact ⟨b, hb, rfl⟩

/-- Baking is two renamings, so what every renaming keeps baking keeps. -/
theorem bake_of_renameType {P : TaggedType → Prop}
    (h : ∀ (rename : List Field → Baking.Renaming) (t : TaggedType), P t →
      P (Baking.renameType rename t)) {t : TaggedType} (ht : P t) : P t.bake.1 := by
  simp only [TaggedType.bake]
  exact h _ _ (h _ t ht)

/-! ## The model of the definitions -/

theorem kept_sublist (ds : List Definition) : (kept ds).Sublist ds := distinctBy_sublist _ ds

/-- The constructors of a type are some of the definitions that count, in order. -/
theorem constructors_of_mem_types {t : TaggedType} (ht : t ∈ (ofDefinitions ds).types) :
    ∃ es : List Definition, es.Sublist ((kept ds).filter (·.category == .types)) ∧
      t.constructors = es.map .ofDefinition := by
  refine ⟨(kept ds).filter (·.constructs t.name), ?_,
    (regroups_ofDefinitions ds).constructors t ht⟩
  refine List.monotone_filter_right (kept ds) fun d hd => ?_
  exact beq_iff_eq.mpr (Definition.constructs_iff.mp hd).1

/-- Every constructor comes from a definition. -/
theorem exists_definition_of_mem_constructors {t : TaggedType} {c : Constructor}
    (ht : t ∈ (ofDefinitions ds).types) (hc : c ∈ t.constructors) :
    ∃ d ∈ ds, c = .ofDefinition d := by
  obtain ⟨es, hes, heq⟩ := constructors_of_mem_types ht
  rw [heq] at hc
  obtain ⟨d, hd, rfl⟩ := List.mem_map.mp hc
  exact ⟨d, (kept_sublist ds).subset (List.filter_sublist.subset (hes.subset hd)), rfl⟩

theorem methods_ofDefinitions (ds : List Definition) : (ofDefinitions ds).methods =
    ((kept ds).filter (·.category == .functions)).map .ofDefinition :=
  (regroups_ofDefinitions ds).methods

theorem mem_methods_ofDefinitions {method : Method} (h : method ∈ (ofDefinitions ds).methods) :
    ∃ d ∈ kept ds, d.category = .functions ∧ method = .ofDefinition d := by
  rw [methods_ofDefinitions] at h
  obtain ⟨d, hd, rfl⟩ := List.mem_map.mp h
  obtain ⟨hkept, hcategory⟩ := List.mem_filter.mp hd
  exact ⟨d, hkept, beq_iff_eq.mp hcategory, rfl⟩

end Model
end TypeLang
