import Mathlib.Data.List.Forall2
import TypeLang.Proofs.Model.Lookup
import TypeLang.Proofs.Model.Tags
import TypeLang.Proofs.Schema.Statement

/-!
# Regrouped definitions

What a model has to say of the definitions that count leaves no choice. They are told by position:
those with no earlier one of the same kind and name. Groups are told by where one ends and the next
begins, and types by their constructors. So the model that the loop over the definitions ends with
is the one model that regroups them.
-/
namespace TypeLang

/-- The definitions of a run determine the group that lists them. -/
theorem Group.Lists.unique {run : List Definition} {g g' : Group} (hne : run ≠ [])
    (h : g.Lists run) (h' : g'.Lists run) : g = g' := by
  obtain ⟨d, hd⟩ := List.exists_mem_of_ne_nil run hne
  rcases g with ⟨label, entries⟩
  rcases g' with ⟨label', entries'⟩
  rw [Group.mk.injEq]
  exact ⟨(h.label d hd).trans (h'.label d hd).symm, h.entries.trans h'.entries.symm⟩

namespace Model

variable {ds : List Definition} {m other : Model}

/-- Groups are regrouped in one way only. -/
theorem Regroups.groups_unique (h : m.Regroups ds) (h' : other.Regroups ds) :
    m.groups = other.groups := by
  obtain ⟨runs, hruns, hgroups⟩ := h.groups
  obtain ⟨runs', hruns', hgroups'⟩ := h'.groups
  obtain rfl : runs = runs' := hruns.eq_splitBy.trans hruns'.eq_splitBy.symm
  have hunique : Relator.RightUnique fun run (g : Group) => run ≠ [] ∧ g.Lists run :=
    fun _ _ _ hg hg' => hg.2.unique hg.1 hg'.2
  exact List.right_unique_forall₂' hunique
    ((List.forall₂_and_left _ _).mpr ⟨hruns.ne_nil, hgroups⟩)
    ((List.forall₂_and_left _ _).mpr ⟨hruns.ne_nil, hgroups'⟩)

/-- The type of a target name, as definitions describe it. -/
def describedType (ds : List Definition) (name : String) : TaggedType where
  name := name
  schemaName := ((ds.find? (·.constructs name)).map (·.result.name.text)).getD ""
  constructors := (ds.filter (·.constructs name)).map .ofDefinition

/-- Types are those that the definitions describe, in the order of their first definitions. -/
theorem Regroups.types_eq (h : m.Regroups ds) : m.types =
    (firsts id ((ds.filter (·.category == .types)).map (·.target.text))).map
      (describedType ds) := by
  have hdescribed : ∀ t ∈ m.types, describedType ds t.name = t := by
    intro t ht
    rcases ht' : t with ⟨name, schemaName, constructors⟩
    have hschemaName := h.schemaName t ht
    have hconstructors := h.constructors t ht
    subst ht'
    rw [describedType, hschemaName]
    exact congrArg _ hconstructors.symm
  rw [← h.names, List.map_map]
  exact (List.map_id' m.types).symm.trans (List.map_congr_left fun t ht => (hdescribed t ht).symm)

/-- Definitions are regrouped in one way only. -/
theorem Regroups.unique (h : m.Regroups ds) (h' : other.Regroups ds) : m = other := by
  ext1
  · exact h.types_eq.trans h'.types_eq.symm
  · exact h.methods.trans h'.methods.symm
  · exact h.groups_unique h'

/-- The model of a list of definitions regroups those that are the first with their category and
name, and is the only one that does. No two types share a name, and a look-up gives the one type or
the one method of a name. -/
theorem regroups_firsts_iff (ds : List Definition) :
    (∀ m, m.Regroups (firsts Definition.entity ds) ↔ m = ofDefinitions ds) ∧
    (ofDefinitions ds).groups.flatMap (·.entries) =
      (firsts Definition.entity ds).map (fun d => ⟨d.tag, d.id, d.source⟩) ∧
    ((ofDefinitions ds).types.map (·.name)).Nodup ∧
    (∀ name t, (ofDefinitions ds).type? name = some t ↔
      t ∈ (ofDefinitions ds).types ∧ t.name = name) ∧
    ∀ name method, (ofDefinitions ds).method? name = some method ↔
      method ∈ (ofDefinitions ds).methods ∧ method.name = name := by
  have hkept : firsts Definition.entity ds = kept ds :=
    (distinctBy_eq_firsts Definition.entity ds).symm
  have hregroups := regroups_ofDefinitions ds
  have hderived : Derived ds (ofDefinitions ds) := .ofDefinitions
  rw [hkept]
  refine ⟨fun m => ⟨fun h => h.unique hregroups, ?_⟩, hregroups.entries, hregroups.nodup_names,
    fun name t => type?_eq_some_iff hregroups.nodup_names,
    fun name method => method?_eq_some_iff hderived.nodup_method_names⟩
  rintro rfl
  exact hregroups

end Model

/-- A type that is opened again after another one is one type, in two groups. -/
example : let m := Model.ofDefinitions (definitionsOf "a#1 = A;\nb#2 = B;\nc#3 = A;")
    m.types.map (fun t => (t.name, t.constructors.map (·.name))) =
      [("TLA", ["a", "c"]), ("TLB", ["b"])] ∧
    m.groups.map (fun g => (g.label, g.entries.map (·.tag))) =
      [("A", ["A"]), ("B", ["B"]), ("A", ["C"])] := by
  decide +kernel

end TypeLang
