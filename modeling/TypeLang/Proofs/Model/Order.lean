import Mathlib.Data.List.Basic
import Mathlib.Data.List.Nodup
import TypeLang.Model.Order
import TypeLang.Proofs.Model.Derived
import TypeLang.Proofs.Schema.Statement

/-!
# Places in the order

What is known of an order of types. A sweep gives places one by one, each behind the places of all
dependencies, and neither loses a type nor gives it a second place; the sweeps end when no type that
waits is ready.
-/
namespace TypeLang

namespace Resolution

variable {all passed waiting : List Waiting} {ordered : List String} {w : Waiting}

/-- The types that have a place and those that wait for one are all types, and every place is behind
those of the dependencies. -/
structure Sound (all : List Waiting) (ordered : List String) (waiting : List Waiting) : Prop where
  perm : (ordered ++ waiting.map (·.name)).Perm (all.map (·.name))
  subset : waiting ⊆ all
  before : ∀ w ∈ all, w.name ∈ ordered → ∀ d ∈ w.dependencies, TargetType.isBuiltin d = false →
    d ∈ ordered ∧ ordered.idxOf d < ordered.idxOf w.name

theorem mem_of_isReady (h : w.isReady ordered) {d : String} (hd : d ∈ w.dependencies)
    (hbuiltin : TargetType.isBuiltin d = false) : d ∈ ordered := by
  simp only [Waiting.isReady, List.all_eq_true] at h
  simpa [isSolved, hbuiltin] using h d hd

theorem exists_blocking (h : w.isReady ordered = false) :
    ∃ d ∈ w.dependencies, isSolved ordered d = false := by
  simpa [Waiting.isReady] using h

theorem Sound.initial (all : List Waiting) : Sound all [] all where
  perm := .refl _
  subset := List.Subset.refl all
  before := by simp

/-- A type that is ready gets the next place. -/
theorem Sound.place (hall : (all.map (·.name)).Nodup)
    (h : Sound all ordered (passed ++ w :: waiting)) (hready : w.isReady ordered) :
    Sound all (ordered ++ [w.name]) (passed ++ waiting) := by
  have hw : w ∈ all := h.subset (by simp)
  have hnew : w.name ∉ ordered := by
    have hnodup := h.perm.nodup_iff.mpr hall
    rw [List.nodup_append] at hnodup
    intro hmem
    exact hnodup.2.2 w.name hmem w.name (by simp) rfl
  constructor
  · have hmiddle : (ordered ++ [w.name] ++ (passed ++ waiting).map (·.name)).Perm
        (ordered ++ (passed ++ w :: waiting).map (·.name)) := by
      simp only [List.map_append, List.map_cons, List.append_assoc, List.singleton_append]
      exact List.Perm.append_left ordered List.perm_middle.symm
    exact hmiddle.trans h.perm
  · refine List.Subset.trans ?_ h.subset
    intro v hv
    rcases List.mem_append.mp hv with hv | hv <;> simp [hv]
  · intro v hv hplaced d hd hbuiltin
    by_cases hold : v.name ∈ ordered
    · obtain ⟨hmem, hlt⟩ := h.before v hv hold d hd hbuiltin
      rw [List.idxOf_append_of_mem hmem, List.idxOf_append_of_mem hold]
      exact ⟨List.mem_append_left _ hmem, hlt⟩
    · -- Names tell types apart, so this is the type that was placed.
      have hname : v.name = w.name := by simpa [hold] using hplaced
      obtain rfl : v = w := List.inj_on_of_nodup_map hall hv hw hname
      have hmem := mem_of_isReady hready hd hbuiltin
      rw [List.idxOf_append_of_mem hmem, List.idxOf_append_of_notMem hnew]
      exact ⟨List.mem_append_left _ hmem,
        Nat.lt_of_lt_of_le (List.idxOf_lt_length_of_mem hmem) (Nat.le_add_right _ _)⟩

/-- A sweep keeps the order sound. -/
theorem Sound.sweep (hall : (all.map (·.name)).Nodup) (h : Sound all ordered (passed ++ waiting)) :
    Sound all (sweep ordered waiting).1 (passed ++ (sweep ordered waiting).2) := by
  induction waiting generalizing ordered passed with
  | nil => exact h
  | cons w rest ih =>
    simp only [Resolution.sweep]
    split
    · next hready => exact ih (h.place hall hready)
    · have hpassed : Sound all ordered (passed ++ [w] ++ rest) := by simpa using h
      simpa using ih hpassed

/-- Sweeps keep the order sound until they end. -/
theorem Sound.settle (hall : (all.map (·.name)).Nodup) (h : Sound all ordered waiting) :
    Sound all (settle ordered waiting).1 (settle ordered waiting).2 := by
  fun_induction Resolution.settle ordered waiting with
  | case1 ordered waiting _ ih =>
    have hstart : Sound all ordered ([] ++ waiting) := h
    exact ih (hstart.sweep hall)
  | case2 => exact h

/-- A sweep without a place to give found no type ready. -/
theorem not_isReady_of_length_sweep (h : waiting.length ≤ (sweep ordered waiting).2.length) :
    ∀ w ∈ waiting, w.isReady ordered = false := by
  fun_induction sweep ordered waiting with
  | case1 => simp
  | case2 ordered w rest _ _ =>
    have hle := length_sweep_le (ordered ++ [w.name]) rest
    simp only [List.length_cons] at h
    omega
  | case3 ordered w rest hready next ih =>
    intro v hv
    rcases List.mem_cons.mp hv with rfl | hv
    · simpa using hready
    · exact ih (Nat.le_of_succ_le_succ h) v hv

theorem not_isReady_of_mem_settle :
    ∀ w ∈ (settle ordered waiting).2, w.isReady (settle ordered waiting).1 = false := by
  fun_induction settle ordered waiting with
  | case1 ordered waiting _ ih => exact ih
  | case2 ordered waiting h => exact not_isReady_of_length_sweep (Nat.le_of_not_lt h)

end Resolution

/-! ## The order of a model -/

/-- A dependency is the type of a field behind vectors only. -/
theorem TaggedType.mem_dependencies {t : TaggedType} {name : String} :
    name ∈ t.dependencies ↔
      ∃ c ∈ t.constructors, ∃ f ∈ c.fields, f.type.isIndirect = false ∧ f.type.base = name := by
  simp only [dependencies, fields, mem_distinct, List.mem_map, List.mem_filter, List.mem_flatMap,
    Bool.not_eq_true']
  constructor
  · rintro ⟨f, ⟨⟨c, hc, hf⟩, hdirect⟩, hbase⟩
    exact ⟨c, hc, f, hf, hdirect, hbase⟩
  · rintro ⟨c, hc, f, hf, hdirect, hbase⟩
    exact ⟨f, ⟨⟨c, hc, hf⟩, hdirect⟩, hbase⟩

namespace Model

variable {m : Model}

theorem map_name_waiting (m : Model) :
    m.waiting.map (·.name) = (m.types.filter fun t => !t.isBuiltin).map (·.name) := by
  simp [waiting]

theorem mem_waiting {t : TaggedType} (ht : t ∈ m.types) (hbuiltin : t.isBuiltin = false) :
    ⟨t.name, t.dependencies⟩ ∈ m.waiting := by
  have hkept : t ∈ m.types.filter fun t => !t.isBuiltin := by simp [ht, hbuiltin]
  exact List.mem_map_of_mem (f := fun t => Resolution.Waiting.mk t.name t.dependencies) hkept

theorem sound_resolve (hm : (m.types.map (·.name)).Nodup) :
    Resolution.Sound m.waiting m.resolve.ordered (Resolution.settle [] m.waiting).2 := by
  refine (Resolution.Sound.initial m.waiting).settle ?_
  rw [map_name_waiting]
  exact (List.filter_sublist.map _).nodup hm

/-- Every type that is not built in has a place or is reported. -/
theorem perm_resolve (hm : (m.types.map (·.name)).Nodup) :
    (m.resolve.ordered ++ m.resolve.unresolved.map (·.name)).Perm
      ((m.types.filter fun t => !t.isBuiltin).map (·.name)) := by
  have hperm := (sound_resolve hm).perm
  rw [map_name_waiting] at hperm
  simpa [resolve, Function.comp_def] using hperm

theorem nodup_resolve (hm : (m.types.map (·.name)).Nodup) :
    (m.resolve.ordered ++ m.resolve.unresolved.map (·.name)).Nodup :=
  (perm_resolve hm).nodup_iff.mpr ((List.filter_sublist.map _).nodup hm)

theorem not_isBuiltin_of_mem_ordered (hm : (m.types.map (·.name)).Nodup) {t : TaggedType}
    (ht : t.name ∈ m.resolve.ordered) : t.isBuiltin = false := by
  have hmem := (perm_resolve hm).subset (List.mem_append_left _ ht)
  obtain ⟨u, hu, hname⟩ := List.mem_map.mp hmem
  have hbuiltin := (List.mem_filter.mp hu).2
  simpa [TaggedType.isBuiltin, hname] using hbuiltin

/-- A type with a place comes after the types it holds by value. -/
theorem before_resolve (hm : (m.types.map (·.name)).Nodup) {t : TaggedType} (ht : t ∈ m.types)
    (hplaced : t.name ∈ m.resolve.ordered) {name : String} (hname : name ∈ t.dependencies)
    (hbuiltin : TargetType.isBuiltin name = false) :
    name ∈ m.resolve.ordered ∧
      m.resolve.ordered.idxOf name < m.resolve.ordered.idxOf t.name :=
  (sound_resolve hm).before _ (mem_waiting ht (not_isBuiltin_of_mem_ordered hm hplaced)) hplaced
    name hname hbuiltin

/-- The order of a model has no type twice, and with the reported types, which are others, it has
all types that are not built in. A type in the order comes strictly after everything that its fields
hold by value, built-in types apart. -/
theorem Derived.ordered_after_dependencies {ds : List Definition} (h : Derived ds m) :
    m.resolve.ordered.Nodup ∧
    m.resolve.ordered.Disjoint (m.resolve.unresolved.map (·.name)) ∧
    (m.resolve.ordered ++ m.resolve.unresolved.map (·.name)).Perm
      ((m.types.filter fun t => !t.isBuiltin).map (·.name)) ∧
    ∀ t ∈ m.types, t.name ∈ m.resolve.ordered → ∀ c ∈ t.constructors, ∀ f ∈ c.fields,
      f.type.isIndirect = false → TargetType.isBuiltin f.type.base = false →
        f.type.base ∈ m.resolve.ordered ∧
          m.resolve.ordered.idxOf f.type.base < m.resolve.ordered.idxOf t.name := by
  have hm := h.nodup_type_names
  obtain ⟨hordered, -, hdisjoint⟩ := List.nodup_append'.mp (nodup_resolve hm)
  refine ⟨hordered, hdisjoint, perm_resolve hm, ?_⟩
  intro t ht hplaced c hc f hf hdirect hbuiltin
  exact before_resolve hm ht hplaced
    (TaggedType.mem_dependencies.mpr ⟨c, hc, f, hf, hdirect, rfl⟩) hbuiltin

end Model

/-- Two types of which one holds the other, two that hold each other, and one that holds something
undefined. -/
def tangledText : String :=
  "f#6 e:Vector<E> s:string = F;\ne#5 x:int = E;\na#1 b:Vector<B> = A;\nb#2 x:int a:A = B;\n" ++
    "d#4 m:Missing = D;"

def tangledModel : Model := Model.ofDefinitions (definitionsOf tangledText)

/-- Of the tangled types two have a place, the later one of the schema first. -/
theorem ordered_after_dependencies_tangledModel :
    tangledModel.resolve.ordered = ["TLE", "TLF"] ∧
      tangledModel.resolve.ordered.idxOf "TLE" < tangledModel.resolve.ordered.idxOf "TLF" := by
  have hrun : tangledModel.resolve.ordered = ["TLE", "TLF"] ∧
      ∃ t ∈ tangledModel.types, t.name = "TLF" ∧ ∃ c ∈ t.constructors, ∃ f ∈ c.fields,
        f.type.isIndirect = false ∧ f.type.base = "TLE" := by decide +kernel
  obtain ⟨hordered, t, ht, hname, c, hc, f, hf, hdirect, hbase⟩ := hrun
  have hm : Model.Derived (definitionsOf tangledText) tangledModel := .ofDefinitions
  have hbefore := hm.ordered_after_dependencies.2.2.2 t ht (by simp [hordered, hname]) c hc f hf
    hdirect (by rw [hbase]; decide)
  rw [hname, hbase] at hbefore
  exact ⟨hordered, hbefore.2⟩

end TypeLang
