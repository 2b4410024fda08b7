import Mathlib.Data.Fintype.Card
import Mathlib.Data.Set.Finite.List
import Mathlib.Logic.Relation
import TypeLang.Proofs.Model.Order

/-!
# Types without a place

Why the order leaves types over. Following what is held by value from such a type one comes to a
name without a definition, or to a type that one comes back to; from a type with a place every way
ends. A type that is left over is reported with exactly those it waits for.
-/
namespace TypeLang

open Relation

/-- Where each element of a list stops or is followed by another one of the list, one comes to an
element that stops or to one that one comes back to. -/
theorem exists_stop_or_cycle {α : Type} {follows : α → α → Prop} {stops : α → Prop} {as : List α}
    (h : ∀ a ∈ as, stops a ∨ ∃ b ∈ as, follows a b) {a : α} (ha : a ∈ as) :
    ∃ b, ReflTransGen follows a b ∧ (stops b ∨ TransGen follows b b) := by
  by_contra hno
  push Not at hno
  let reached : Set α := {b | b ∈ as ∧ ReflTransGen follows a b}
  have hfinite : reached.Finite := (List.finite_toSet as).subset fun b hb => hb.1
  have : Finite reached := hfinite.to_subtype
  -- Without a cycle among them, what is reached ends with something.
  let behind : reached → reached → Prop := fun b c => TransGen follows c.1 b.1
  have : IsTrans reached behind := ⟨fun _ _ _ hab hbc => hbc.trans hab⟩
  have : Std.Irrefl behind := ⟨fun b => (hno b.1 b.2.2).2⟩
  have hend := Finite.wellFounded_of_trans_of_irrefl behind
  obtain ⟨last, -, hlast⟩ := hend.has_min Set.univ ⟨⟨a, ha, .refl⟩, trivial⟩
  rcases h last.1 last.2.1 with hstop | ⟨b, hb, hstep⟩
  · exact (hno last.1 last.2.2).1 hstop
  · exact hlast ⟨b, hb, last.2.2.tail hstep⟩ trivial (.single hstep)

/-! ## What types hold -/

/-- The names held by value, one for each field that holds something by value. -/
def TaggedType.heldNames (t : TaggedType) : List String :=
  (t.fields.filter fun f => !f.type.isIndirect).map fun f => f.type.base

namespace Model

variable {m : Model} {owner name : String}

/-- Whether a name is that of a type of the model. -/
def Defines (m : Model) (name : String) : Prop := name ∈ m.types.map (·.name)

/-- Whether a type holds another one by value: in a field, perhaps in vectors, but behind no
pointer. Built-in types hold nothing and are not held. -/
structure HoldsByValue (m : Model) (owner name : String) : Prop where
  owner_isBuiltin : TargetType.isBuiltin owner = false
  name_isBuiltin : TargetType.isBuiltin name = false
  field : ∃ t ∈ m.types, t.name = owner ∧
    ∃ c ∈ t.constructors, ∃ f ∈ c.fields, f.type.isIndirect = false ∧ f.type.base = name

theorem HoldsByValue.defines (h : m.HoldsByValue owner name) : m.Defines owner := by
  obtain ⟨t, ht, rfl, -⟩ := h.field
  exact List.mem_map_of_mem ht

theorem HoldsByValue.mem_dependencies (h : m.HoldsByValue owner name) :
    ∃ t ∈ m.types, t.name = owner ∧ name ∈ t.dependencies := by
  obtain ⟨t, ht, hname, hfield⟩ := h.field
  exact ⟨t, ht, hname, TaggedType.mem_dependencies.mpr hfield⟩

theorem holdsByValue_of_mem_dependencies {t : TaggedType} (ht : t ∈ m.types)
    (howner : t.isBuiltin = false) (hname : TargetType.isBuiltin name = false)
    (h : name ∈ t.dependencies) : m.HoldsByValue t.name name :=
  ⟨howner, hname, t, ht, rfl, TaggedType.mem_dependencies.mp h⟩

/-! ## Types with a place -/

theorem defines_of_mem_ordered (hm : (m.types.map (·.name)).Nodup)
    (h : name ∈ m.resolve.ordered) : m.Defines name := by
  have hmem := (perm_resolve hm).subset (List.mem_append_left _ h)
  exact (List.filter_sublist.map _).subset hmem

theorem HoldsByValue.before (hm : (m.types.map (·.name)).Nodup) (h : m.HoldsByValue owner name)
    (hplaced : owner ∈ m.resolve.ordered) :
    name ∈ m.resolve.ordered ∧ m.resolve.ordered.idxOf name < m.resolve.ordered.idxOf owner := by
  obtain ⟨t, ht, rfl, hmem⟩ := h.mem_dependencies
  exact before_resolve hm ht hplaced hmem h.name_isBuiltin

/-- Everything on a way from a type with a place has a place in front of it. -/
theorem before_of_transGen (hm : (m.types.map (·.name)).Nodup)
    (h : TransGen m.HoldsByValue owner name) (hplaced : owner ∈ m.resolve.ordered) :
    name ∈ m.resolve.ordered ∧ m.resolve.ordered.idxOf name < m.resolve.ordered.idxOf owner := by
  induction h with
  | single h => exact h.before hm hplaced
  | tail _ h ih =>
    obtain ⟨hmem, hlt⟩ := h.before hm ih.1
    exact ⟨hmem, Nat.lt_trans hlt ih.2⟩

theorem mem_ordered_of_reflTransGen (hm : (m.types.map (·.name)).Nodup)
    (h : ReflTransGen m.HoldsByValue owner name) (hplaced : owner ∈ m.resolve.ordered) :
    name ∈ m.resolve.ordered := by
  induction h with
  | refl => exact hplaced
  | tail _ h ih => exact (h.before hm ih).1

/-! ## Types that are left over -/

theorem mem_ordered_or_unresolved (hm : (m.types.map (·.name)).Nodup) (hdefined : m.Defines name)
    (hbuiltin : TargetType.isBuiltin name = false) :
    name ∈ m.resolve.ordered ∨ name ∈ m.resolve.unresolved.map (·.name) := by
  obtain ⟨t, ht, rfl⟩ := List.mem_map.mp hdefined
  refine List.mem_append.mp ((perm_resolve hm).symm.subset (List.mem_map_of_mem ?_))
  simpa [ht, TaggedType.isBuiltin] using hbuiltin

theorem notMem_ordered_of_mem_unresolved (hm : (m.types.map (·.name)).Nodup)
    (h : name ∈ m.resolve.unresolved.map (·.name)) : name ∉ m.resolve.ordered := fun hordered =>
  (List.nodup_append'.mp (nodup_resolve hm)).2.2 hordered h

/-- A report is about a type of the model that is not built in, and names the dependencies of the
type that are neither built in nor in the order. -/
theorem exists_of_mem_unresolved (hm : (m.types.map (·.name)).Nodup) {u : Unresolved}
    (hu : u ∈ m.resolve.unresolved) : ∃ t ∈ m.types, t.isBuiltin = false ∧ u.name = t.name ∧
      u.blocking = t.dependencies.filter fun d => !Resolution.isSolved m.resolve.ordered d := by
  obtain ⟨w, hw, rfl⟩ := List.mem_map.mp hu
  obtain ⟨t, ht, rfl⟩ := List.mem_map.mp ((sound_resolve hm).subset hw)
  have hmem := List.mem_filter.mp ht
  exact ⟨t, hmem.1, by simpa using hmem.2, rfl, rfl⟩

/-- What is left unresolved is blocked by something. -/
theorem blocking_ne_nil {u : Unresolved} (hu : u ∈ m.resolve.unresolved) : u.blocking ≠ [] := by
  obtain ⟨w, hw, rfl⟩ := List.mem_map.mp hu
  obtain ⟨d, hd, hunsolved⟩ :=
    Resolution.exists_blocking (Resolution.not_isReady_of_mem_settle w hw)
  refine List.ne_nil_of_mem (a := d) (List.mem_filter.mpr ⟨hd, ?_⟩)
  rw [hunsolved]
  rfl

/-- A reported type waits for what it holds by value and has no definition or is reported too. -/
theorem mem_blocking (hm : (m.types.map (·.name)).Nodup) {u : Unresolved}
    (hu : u ∈ m.resolve.unresolved) : name ∈ u.blocking ↔ m.HoldsByValue u.name name ∧
      (¬m.Defines name ∨ name ∈ m.resolve.unresolved.map (·.name)) := by
  obtain ⟨t, ht, howner, hname, hblocking⟩ := exists_of_mem_unresolved hm hu
  rw [hblocking, hname, List.mem_filter]
  simp only [Resolution.isSolved, Bool.not_or, Bool.and_eq_true, Bool.not_eq_true',
    List.contains_eq_mem, decide_eq_false_iff_not]
  constructor
  · rintro ⟨hmem, hbuiltin, hopen⟩
    refine ⟨holdsByValue_of_mem_dependencies ht howner hbuiltin hmem, ?_⟩
    by_cases hdefined : m.Defines name
    · exact .inr ((mem_ordered_or_unresolved hm hdefined hbuiltin).resolve_left hopen)
    · exact .inl hdefined
  · rintro ⟨hholds, hopen⟩
    obtain ⟨v, hv, hsame, hmem⟩ := hholds.mem_dependencies
    obtain rfl : v = t := List.inj_on_of_nodup_map hm hv ht hsame
    refine ⟨hmem, hholds.name_isBuiltin, ?_⟩
    rcases hopen with hundefined | hunresolved
    · exact fun hordered => hundefined (defines_of_mem_ordered hm hordered)
    · exact notMem_ordered_of_mem_unresolved hm hunresolved

/-- From a reported type one comes to a name without a definition or to a cycle. -/
theorem exists_reaches_of_mem_unresolved (hm : (m.types.map (·.name)).Nodup)
    (h : owner ∈ m.resolve.unresolved.map (·.name)) :
    ∃ name, ReflTransGen m.HoldsByValue owner name ∧
      (¬m.Defines name ∨ TransGen m.HoldsByValue name name) := by
  have hnext : ∀ a ∈ m.resolve.unresolved.map (·.name),
      (∃ b, m.HoldsByValue a b ∧ ¬m.Defines b) ∨
        ∃ b ∈ m.resolve.unresolved.map (·.name), m.HoldsByValue a b := by
    intro a ha
    obtain ⟨u, hu, rfl⟩ := List.mem_map.mp ha
    obtain ⟨b, hb⟩ := List.exists_mem_of_ne_nil _ (blocking_ne_nil hu)
    obtain ⟨hholds, hundefined | hunresolved⟩ := (mem_blocking hm hu).mp hb
    · exact .inl ⟨b, hholds, hundefined⟩
    · exact .inr ⟨b, hunresolved, hholds⟩
  obtain ⟨last, hreach, ⟨name, hholds, hundefined⟩ | hcycle⟩ := exists_stop_or_cycle hnext h
  · exact ⟨name, hreach.tail hholds, .inl hundefined⟩
  · exact ⟨last, hreach, .inr hcycle⟩

/-- A type is left unresolved exactly when it reaches an undefined type or a cycle. -/
theorem mem_unresolved_iff (hm : (m.types.map (·.name)).Nodup) (hdefined : m.Defines owner)
    (hbuiltin : TargetType.isBuiltin owner = false) :
    owner ∈ m.resolve.unresolved.map (·.name) ↔
      ∃ name, ReflTransGen m.HoldsByValue owner name ∧
        (¬m.Defines name ∨ TransGen m.HoldsByValue name name) := by
  refine ⟨exists_reaches_of_mem_unresolved hm, ?_⟩
  rintro ⟨name, hreach, hend⟩
  rcases mem_ordered_or_unresolved hm hdefined hbuiltin with hplaced | hunresolved
  · have hname := mem_ordered_of_reflTransGen hm hreach hplaced
    rcases hend with hundefined | hcycle
    · exact absurd (defines_of_mem_ordered hm hname) hundefined
    · exact absurd (before_of_transGen hm hcycle hname).2 (Nat.lt_irrefl _)
  · exact hunresolved

/-- Every type has a place exactly when nothing is held that has no definition, and nothing holds
itself on any way round. -/
theorem isComplete_resolve_iff (hm : (m.types.map (·.name)).Nodup) :
    m.resolve.isComplete ↔ (∀ name, ¬TransGen m.HoldsByValue name name) ∧
      ∀ owner name, m.HoldsByValue owner name → m.Defines name := by
  rw [Resolution.isComplete, List.isEmpty_iff]
  constructor
  · intro hnone
    have hplaced : ∀ {owner}, m.Defines owner → TargetType.isBuiltin owner = false →
        ¬∃ name, ReflTransGen m.HoldsByValue owner name ∧
          (¬m.Defines name ∨ TransGen m.HoldsByValue name name) := by
      intro owner hdefined hbuiltin
      rw [← mem_unresolved_iff hm hdefined hbuiltin, hnone]
      simp
    constructor
    · intro name hcycle
      obtain ⟨next, hholds, -⟩ := TransGen.head'_iff.mp hcycle
      exact hplaced hholds.defines hholds.owner_isBuiltin ⟨name, .refl, .inr hcycle⟩
    · intro owner name hholds
      by_contra hundefined
      exact hplaced hholds.defines hholds.owner_isBuiltin ⟨name, .single hholds, .inl hundefined⟩
  · rintro ⟨hacyclic, hdefined⟩
    refine List.eq_nil_iff_forall_not_mem.mpr fun u hu => ?_
    obtain ⟨name, hreach, hundefined | hcycle⟩ :=
      exists_reaches_of_mem_unresolved hm (List.mem_map_of_mem hu)
    · rcases ReflTransGen.cases_tail hreach with rfl | ⟨last, -, hholds⟩
      · obtain ⟨t, ht, -, hname, -⟩ := exists_of_mem_unresolved hm hu
        exact hundefined (hname ▸ List.mem_map_of_mem ht)
      · exact hundefined (hdefined last name hholds)
    · exact hacyclic name hcycle

/-- What the order of a model leaves over. A type that is not built in is reported exactly when one
comes from it, along what is held by value, to a name without a definition or to a cycle. The report
names what the type waits for, which is something: the names it holds by value that have no
definition or are reported themselves, once each and in the order of their first uses. So nothing is
reported exactly when there are no cycles and no such names. -/
theorem Derived.unresolved_iff_reaches {ds : List Definition} (h : Derived ds m) :
    (∀ t ∈ m.types, t.isBuiltin = false →
      (t.name ∈ m.resolve.unresolved.map (·.name) ↔
        ∃ name, ReflTransGen m.HoldsByValue t.name name ∧
          (¬m.Defines name ∨ TransGen m.HoldsByValue name name))) ∧
    (∀ t ∈ m.types, ∀ u ∈ m.resolve.unresolved, u.name = t.name →
      u.blocking ≠ [] ∧
      (∀ name, name ∈ u.blocking ↔ m.HoldsByValue t.name name ∧
        (¬m.Defines name ∨ name ∈ m.resolve.unresolved.map (·.name))) ∧
      u.blocking.Pairwise fun a b => t.heldNames.idxOf a < t.heldNames.idxOf b) ∧
    (m.resolve.isComplete ↔ (∀ name, ¬TransGen m.HoldsByValue name name) ∧
      ∀ owner name, m.HoldsByValue owner name → m.Defines name) := by
  have hm := h.nodup_type_names
  refine ⟨?_, ?_, isComplete_resolve_iff hm⟩
  · intro t ht hbuiltin
    exact mem_unresolved_iff hm (List.mem_map_of_mem ht) hbuiltin
  · intro t ht u hu hname
    refine ⟨blocking_ne_nil hu, fun name => hname ▸ mem_blocking hm hu, ?_⟩
    obtain ⟨v, hv, -, hsame, hblocking⟩ := exists_of_mem_unresolved hm hu
    obtain rfl : v = t := List.inj_on_of_nodup_map hm hv ht (hsame.symm.trans hname)
    rw [hblocking]
    exact (pairwise_idxOf_distinct v.heldNames).sublist List.filter_sublist

end Model

/-- Of the tangled types those that hold each other are reported, and the one that holds something
undefined. -/
theorem unresolved_iff_reaches_tangledModel :
    tangledModel.resolve.unresolved =
      [⟨"TLA", ["TLB"]⟩, ⟨"TLB", ["TLA"]⟩, ⟨"TLD", ["TLMissing"]⟩] ∧
    ∃ name, ReflTransGen tangledModel.HoldsByValue "TLA" name ∧
      (¬tangledModel.Defines name ∨ TransGen tangledModel.HoldsByValue name name) := by
  have hrun : tangledModel.resolve.unresolved =
      [⟨"TLA", ["TLB"]⟩, ⟨"TLB", ["TLA"]⟩, ⟨"TLD", ["TLMissing"]⟩] ∧
      ∃ t ∈ tangledModel.types, t.name = "TLA" ∧ t.isBuiltin = false := by decide +kernel
  obtain ⟨hunresolved, t, ht, hname, hbuiltin⟩ := hrun
  have hm : Model.Derived (definitionsOf tangledText) tangledModel := .ofDefinitions
  refine ⟨hunresolved, ?_⟩
  rw [← hname]
  apply (hm.unresolved_iff_reaches.1 t ht hbuiltin).mp
  simp [hunresolved, hname]

end TypeLang
