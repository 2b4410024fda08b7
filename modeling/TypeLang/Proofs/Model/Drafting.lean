import Mathlib.Data.List.Forall2
import TypeLang.Model.OfDefinitions
import TypeLang.Proofs.Model.Runs

/-!
# What a draft holds

A model says what the definitions that count say, in their order, three times over: as groups of tag
constants, as types with their constructors, and as methods. A draft holds the definitions that
count so far. Entering one more keeps this: a definition is dropped when one with its kind and name
is held, and else it is the next one in its group, in its type or among the methods.
-/
namespace TypeLang

namespace Definition

/-- What tells entities apart. A constructor and a method may share their name. -/
def entity (d : Definition) : Category × String := (d.category, d.entityName)

/-- Whether a definition is a constructor of the type of a target name. -/
def constructs (name : String) (d : Definition) : Bool :=
  d.category == .types && d.target.text == name

variable {d : Definition} {name : String}

theorem constructs_iff : d.constructs name = true ↔ d.category = .types ∧ d.target.text = name := by
  rw [constructs, Bool.and_eq_true, beq_iff_eq, beq_iff_eq]

theorem constructs_of_ne (h : name ≠ d.target.text) : d.constructs name = false := by
  rw [Bool.eq_false_iff, ne_eq, constructs_iff]
  exact fun hd => h hd.2.symm

theorem constructs_of_functions (h : d.category = .functions) : d.constructs name = false := by
  rw [Bool.eq_false_iff, ne_eq, constructs_iff, h]
  exact fun hd => nomatch hd.1

end Definition

/-- A group lists the definitions of a run. -/
structure Group.Lists (run : List Definition) (g : Group) : Prop where
  label : ∀ d ∈ run, g.label = d.groupLabel
  entries : g.entries = run.map fun d => ⟨d.tag, d.id, d.source⟩

/-- A definition of the same group is listed behind the others. -/
theorem Group.Lists.addEntry {run : List Definition} {g : Group} (h : g.Lists run)
    {d : Definition} (hlabel : g.label = d.groupLabel) :
    (g.addEntry (.ofDefinition d)).Lists (run ++ [d]) where
  label := by
    intro e he
    rcases List.mem_append.mp he with he | he
    · exact h.label e he
    · rw [List.mem_singleton.mp he]
      exact hlabel
  entries := by
    rw [Group.addEntry, h.entries, List.map_append]
    rfl

namespace Model

/-- The definitions that count: the first of each category and name. -/
def kept (ds : List Definition) : List Definition := distinctBy Definition.entity ds

/-- One more definition counts when none before it has its kind and name. -/
theorem kept_concat (ds : List Definition) (d : Definition) : kept (ds ++ [d]) =
    kept ds ++ if d.entity ∈ (kept ds).map Definition.entity then [] else [d] := by
  simp only [kept, mem_map_distinctBy]
  rw [distinctBy_eq_firsts, distinctBy_eq_firsts, firsts_concat]
  congr

/-- A model that says what these definitions say: its groups list the maximal runs of definitions
that belong together, its types stand in the order of their first constructors and have these
constructors in order, and its methods are the functions in order. -/
structure Regroups (ds : List Definition) (m : Model) : Prop where
  groups : ∃ runs, IsRuns Definition.groupKey ds runs ∧ List.Forall₂ Group.Lists runs m.groups
  names : m.types.map (·.name) =
    firsts id ((ds.filter (·.category == .types)).map (·.target.text))
  schemaName : ∀ t ∈ m.types,
    (ds.find? (·.constructs t.name)).map (·.result.name.text) = some t.schemaName
  constructors : ∀ t ∈ m.types, t.constructors = (ds.filter (·.constructs t.name)).map fun d =>
    ⟨d.entityName, d.id, d.parameters.map .ofParameter, d.source⟩
  methods : m.methods = (ds.filter (·.category == .functions)).map fun d =>
    ⟨d.entityName, d.id, d.target, d.parameters.map .ofParameter, d.source, d.template⟩

variable {ds : List Definition} {m : Model}

theorem Regroups.nodup_names (h : m.Regroups ds) : (m.types.map (·.name)).Nodup := by
  rw [h.names]
  exact nodup_firsts_id _

/-- There is a type of a name exactly when a definition constructs it. -/
theorem Regroups.mem_names (h : m.Regroups ds) {name : String} :
    name ∈ m.types.map (·.name) ↔ ∃ d ∈ ds, d.constructs name := by
  rw [h.names, mem_firsts_id, List.mem_map]
  simp only [List.mem_filter, Definition.constructs_iff, beq_iff_eq, and_assoc]

/-- A type has the names that its first constructor gives it. -/
theorem Regroups.exists_first (h : m.Regroups ds) {t : TaggedType} (ht : t ∈ m.types) :
    ∃ d ∈ ds, d.category = .types ∧ t.name = d.target.text ∧
      t.schemaName = d.result.name.text := by
  obtain ⟨d, hfind, hname⟩ := Option.map_eq_some_iff.mp (h.schemaName t ht)
  obtain ⟨hcategory, htarget⟩ := Definition.constructs_iff.mp (List.find?_some hfind)
  exact ⟨d, List.mem_of_find?_eq_some hfind, hcategory, htarget.symm, hname.symm⟩

/-- The groups list all definitions, in order. -/
theorem Regroups.entries (h : m.Regroups ds) :
    m.groups.flatMap (·.entries) = ds.map fun d => ⟨d.tag, d.id, d.source⟩ := by
  obtain ⟨runs, hruns, hgroups⟩ := h.groups
  have hlisted : m.groups.map (·.entries) =
      runs.map (List.map fun d => ⟨d.tag, d.id, d.source⟩) := by
    symm
    rw [← List.forall₂_eq_eq_eq, List.forall₂_map_left_iff, List.forall₂_map_right_iff]
    exact hgroups.imp fun _ _ hlists => hlists.entries.symm
  rw [List.flatMap_def, hlisted, ← List.map_flatten, hruns.flatten_eq]

/-! ## One more constructor -/

section Constructor

variable {target schemaName : String} {c : Constructor}

@[simp] theorem methods_addConstructor :
    (m.addConstructor target schemaName c).methods = m.methods := by
  unfold addConstructor
  split <;> rfl

@[simp] theorem groups_addConstructor :
    (m.addConstructor target schemaName c).groups = m.groups := by
  unfold addConstructor
  split <;> rfl

/-- Changing the element at the index of a name is changing the element of that name. -/
theorem modify_eq_map {i : Nat} (hnodup : (m.types.map (·.name)).Nodup)
    (hi : m.typeIndex.lookup target = some i) :
    m.types.modify i (·.addConstructor c) =
      m.types.map fun t => if t.name = target then t.addConstructor c else t := by
  rw [m.typeIndex_eq, lookup_positions, List.findIdx?_eq_some_iff_getElem] at hi
  obtain ⟨hlt, hname, -⟩ := hi
  refine List.ext_getElem? fun j => ?_
  rw [List.getElem?_modify, List.getElem?_map, Option.map_eq_map]
  refine Option.map_congr fun t ht => ?_
  obtain ⟨hj, rfl⟩ := List.getElem?_eq_some_iff.mp ht
  have hindex : i = j ↔ m.types[j].name = target := by
    have hi' : i < (m.types.map (·.name)).length := by rwa [List.length_map]
    have hj' : j < (m.types.map (·.name)).length := by rwa [List.length_map]
    have hinj : (m.types.map (·.name))[i] = (m.types.map (·.name))[j] ↔ i = j :=
      List.getElem_inj hnodup
    rw [List.getElem_map, List.getElem_map, beq_iff_eq.mp hname] at hinj
    rw [← hinj, eq_comm]
  simp only [hindex]

/-- The constructor goes to the type of its target, which is added if there is none. -/
theorem types_addConstructor (hnodup : (m.types.map (·.name)).Nodup) :
    (m.addConstructor target schemaName c).types =
      if target ∈ m.types.map (·.name) then
        m.types.map fun t => if t.name = target then t.addConstructor c else t
      else m.types ++ [{ name := target, schemaName, constructors := [c] }] := by
  unfold addConstructor
  split
  · next i hi =>
    have hmem : target ∈ m.types.map (·.name) := by
      rw [m.typeIndex_eq, lookup_positions, List.findIdx?_eq_some_iff_getElem] at hi
      obtain ⟨hlt, hname, -⟩ := hi
      exact List.mem_map.mpr ⟨_, List.getElem_mem hlt, beq_iff_eq.mp hname⟩
    rw [if_pos hmem]
    exact modify_eq_map hnodup hi
  · next hi =>
    have hmem : target ∉ m.types.map (·.name) := by
      rw [m.typeIndex_eq, lookup_positions, List.findIdx?_eq_none_iff] at hi
      rintro hmem
      obtain ⟨t, ht, rfl⟩ := List.mem_map.mp hmem
      simpa using hi t ht
    rw [if_neg hmem]

/-- With one more constructor a type is another one, the one that got it, or new. -/
theorem mem_types_addConstructor (hnodup : (m.types.map (·.name)).Nodup) {t : TaggedType}
    (ht : t ∈ (m.addConstructor target schemaName c).types) :
    (t ∈ m.types ∧ t.name ≠ target) ∨
    (∃ u ∈ m.types, u.name = target ∧ t = u.addConstructor c) ∨
    (target ∉ m.types.map (·.name) ∧ t = ⟨target, schemaName, [c]⟩) := by
  rw [types_addConstructor hnodup] at ht
  split at ht
  · obtain ⟨u, hu, rfl⟩ := List.mem_map.mp ht
    split
    · next hname => exact .inr (.inl ⟨u, hu, hname, rfl⟩)
    · next hname => exact .inl ⟨hu, hname⟩
  · next hfresh =>
    rcases List.mem_append.mp ht with hold | hnew
    · exact .inl ⟨hold, fun hname => hfresh (hname ▸ List.mem_map_of_mem hold)⟩
    · exact .inr (.inr ⟨hfresh, List.mem_singleton.mp hnew⟩)

end Constructor

section Step

variable {d : Definition} (h : m.Regroups ds)
include h

/-- A new type is listed behind the others. -/
theorem Regroups.names_addConstructor (hd : d.category = .types) :
    (m.addConstructor d.target.text d.result.name.text (.ofDefinition d)).types.map (·.name) =
      firsts id (((ds ++ [d]).filter (·.category == .types)).map (·.target.text)) := by
  have hmem := @mem_firsts_id _ _ d.target.text ((ds.filter (·.category == .types)).map
    (·.target.text))
  rw [List.filter_append, List.map_append, List.filter_cons_of_pos (by rw [hd]; rfl),
    List.filter_nil, List.map_singleton, firsts_concat, List.map_id, ← h.names,
    types_addConstructor h.nodup_names]
  rw [← h.names] at hmem
  simp only [id_eq, ← hmem]
  split
  · rw [List.map_map, List.append_nil]
    refine List.map_congr_left fun t _ => ?_
    rw [Function.comp_apply]
    split <;> rfl
  · rw [List.map_append, List.map_singleton]

theorem Regroups.schemaName_concat {t : TaggedType} (ht : t ∈ m.types) :
    ((ds ++ [d]).find? (·.constructs t.name)).map (·.result.name.text) = some t.schemaName := by
  have hfirst := h.schemaName t ht
  obtain ⟨first, hfind, -⟩ := Option.map_eq_some_iff.mp hfirst
  rwa [List.find?_append, hfind, Option.some_or, ← hfind]

/-- Types keep the name that their first definition has in the schema. -/
theorem Regroups.schemaName_addConstructor (hd : d.category = .types) : ∀ t ∈
    (m.addConstructor d.target.text d.result.name.text (.ofDefinition d)).types,
    ((ds ++ [d]).find? (·.constructs t.name)).map (·.result.name.text) = some t.schemaName := by
  intro t ht
  rcases mem_types_addConstructor h.nodup_names ht with
    ⟨ht, -⟩ | ⟨u, hu, -, rfl⟩ | ⟨hfresh, rfl⟩
  · exact h.schemaName_concat ht
  · have hconcat := h.schemaName_concat (d := d) hu
    exact hconcat
  · have hnone : ds.find? (·.constructs d.target.text) = none := by
      rw [List.find?_eq_none]
      intro e he hconstructs
      exact hfresh (h.mem_names.mpr ⟨e, he, hconstructs⟩)
    rw [List.find?_append, hnone, Option.none_or,
      List.find?_cons_of_pos (Definition.constructs_iff.mpr ⟨hd, rfl⟩), Option.map_some]

/-- The constructor goes behind those of its type. -/
theorem Regroups.constructors_addConstructor (hd : d.category = .types) : ∀ t ∈
    (m.addConstructor d.target.text d.result.name.text (.ofDefinition d)).types,
    t.constructors = ((ds ++ [d]).filter (·.constructs t.name)).map fun d =>
      ⟨d.entityName, d.id, d.parameters.map .ofParameter, d.source⟩ := by
  have hconstructs : d.constructs d.target.text = true := Definition.constructs_iff.mpr ⟨hd, rfl⟩
  intro t ht
  rw [List.filter_append, List.map_append]
  rcases mem_types_addConstructor h.nodup_names ht with
    ⟨ht, hname⟩ | ⟨u, hu, hname, rfl⟩ | ⟨hfresh, rfl⟩
  · rw [List.filter_cons_of_neg (by simp [Definition.constructs_of_ne hname]), List.filter_nil,
      List.map_nil, List.append_nil]
    exact h.constructors t ht
  · rw [TaggedType.addConstructor, hname, List.filter_cons_of_pos hconstructs, List.filter_nil,
      h.constructors u hu, hname]
    rfl
  · have hnil : ds.filter (·.constructs d.target.text) = [] := by
      rw [List.filter_eq_nil_iff]
      exact fun e he hconstructs => hfresh (h.mem_names.mpr ⟨e, he, hconstructs⟩)
    rw [hnil, List.filter_cons_of_pos hconstructs, List.filter_nil]
    rfl

end Step

end Model

/-! ## Drafts -/

namespace Draft

/-- A draft that holds definitions: its model says what they say, and it knows the names of their
constructors and the key of the last one. -/
structure Holds (ds : List Definition) (draft : Draft) : Prop where
  regroups : draft.model.Regroups ds
  mem_constructorNames : ∀ name,
    name ∈ draft.constructorNames ↔ (.types, name) ∈ ds.map Definition.entity
  lastKey_eq : draft.lastKey = ds.getLast?.map Definition.groupKey

theorem holds_empty : empty.Holds [] where
  regroups := by
    refine ⟨⟨[], ⟨rfl, ?_, ?_, List.isChain_nil⟩, .nil⟩, rfl, ?_, ?_, rfl⟩ <;>
      simp [empty, Model.empty]
  mem_constructorNames := by simp [empty]
  lastKey_eq := rfl

variable {ds : List Definition} {draft : Draft} {d : Definition}

/-- A draft knows exactly the kinds and names of the definitions before. -/
theorem Holds.knows_iff (h : draft.Holds ds) :
    draft.knows d = true ↔ d.entity ∈ ds.map Definition.entity := by
  unfold knows
  split
  · next hd => rw [List.contains_iff_mem, h.mem_constructorNames, Definition.entity, hd]
  · next hd =>
    rw [draft.model.methodIndex_eq, lookup_positions, List.findIdx?_isSome, h.regroups.methods]
    simp only [List.any_map, List.any_eq_true, List.mem_filter, beq_iff_eq, List.mem_map,
      Definition.entity, hd, Prod.mk.injEq, and_assoc, Function.comp_apply]

/-! ### Listing -/

@[simp] theorem types_list : (draft.list d).model.types = draft.model.types := by
  unfold list
  split <;> rfl

@[simp] theorem methods_list : (draft.list d).model.methods = draft.model.methods := by
  unfold list
  split <;> rfl

@[simp] theorem constructorNames_list :
    (draft.list d).constructorNames = draft.constructorNames := by
  unfold list
  split <;> rfl

@[simp] theorem lastKey_list : (draft.list d).lastKey = some d.groupKey := by
  unfold list
  split
  · assumption
  · rfl

theorem forall₂_concat {α β : Type} {R : α → β → Prop} {as : List α} {a : α} {bs : List β}
    (h : List.Forall₂ R (as ++ [a]) bs) :
    ∃ cs c, bs = cs ++ [c] ∧ List.Forall₂ R as cs ∧ R a c := by
  induction as generalizing bs with
  | nil =>
    obtain ⟨c, _, hc, hnil, rfl⟩ := List.forall₂_cons_left_iff.mp h
    rw [List.forall₂_nil_left_iff.mp hnil]
    exact ⟨[], c, rfl, .nil, hc⟩
  | cons b as ih =>
    obtain ⟨c, rest, hc, hrest, rfl⟩ := List.forall₂_cons_left_iff.mp h
    obtain ⟨cs, last, rfl, hcs, hlast⟩ := ih hrest
    exact ⟨c :: cs, last, rfl, .cons hc hcs, hlast⟩

theorem modify_length_concat {α : Type} (f : α → α) (as : List α) (a : α) :
    (as ++ [a]).modify as.length f = as ++ [f a] := by
  induction as with
  | nil => rfl
  | cons b as ih => rw [List.cons_append, List.length_cons, List.modify_succ_cons, ih,
      List.cons_append]

theorem groups_addEntry {m : Model} {groups : List Group} {g : Group} (h : m.groups = groups ++ [g])
    (e : GroupEntry) : (m.addEntry e).groups = groups ++ [g.addEntry e] := by
  simp only [Model.addEntry, h, List.length_append, List.length_singleton, Nat.add_sub_cancel]
  exact modify_length_concat _ groups g

/-- Listing a definition goes on with the last group if the definition goes on with the last run,
and else opens a group where the definition starts a run. -/
theorem Holds.groups_list (h : draft.Holds ds) : ∃ runs,
    IsRuns Definition.groupKey (ds ++ [d]) runs ∧
      List.Forall₂ Group.Lists runs (draft.list d).model.groups := by
  obtain ⟨runs, hruns, hgroups⟩ := h.regroups.groups
  have hlast := h.lastKey_eq
  unfold list
  split
  · next hkey =>
    rw [hkey] at hlast
    rcases List.eq_nil_or_concat' runs with rfl | ⟨init, run, rfl⟩
    · rw [← hruns.flatten_eq] at hlast
      exact absurd hlast (by simp)
    · obtain ⟨groups, g, heq, hinit, hg⟩ := forall₂_concat hgroups
      obtain ⟨e, he⟩ := List.exists_mem_of_ne_nil run (hruns.ne_nil run (by simp))
      have hsame : d.groupKey = e.groupKey :=
        Option.some.inj (hlast.trans (hruns.map_getLast? he))
      have hlabel : g.label = d.groupLabel := (hg.label e he).trans (congrArg Prod.snd hsame).symm
      refine ⟨_, hruns.extend hlast.symm, ?_⟩
      rw [groups_addEntry heq]
      exact List.rel_append hinit (.cons (hg.addEntry hlabel) .nil)
  · next hkey =>
    rw [hlast] at hkey
    have hopen : Group.Lists [] ⟨d.groupLabel, []⟩ := ⟨by simp, rfl⟩
    refine ⟨_, hruns.start hkey, ?_⟩
    rw [groups_addEntry rfl]
    exact List.rel_append hgroups (.cons (hopen.addEntry rfl) .nil)

/-! ### Defining -/

/-- One more constructor keeps the draft. -/
theorem Holds.concat_constructor (h : draft.Holds ds) (hd : d.category = .types) :
    ((draft.list d).define d).Holds (ds ++ [d]) := by
  have hregroups := h.regroups
  have hnodup := hregroups.nodup_names
  have htypes : ∀ schemaName c,
      ((draft.list d).model.addConstructor d.target.text schemaName c).types =
        (draft.model.addConstructor d.target.text schemaName c).types := by
    intro schemaName c
    rw [Model.types_addConstructor hnodup, Model.types_addConstructor (by rwa [types_list]),
      types_list]
  have hdefine : (draft.list d).define d = { draft.list d with
      model := (draft.list d).model.addConstructor d.target.text d.result.name.text
        (.ofDefinition d)
      constructorNames := d.entityName :: (draft.list d).constructorNames } := by
    rw [define, hd]
  rw [hdefine]
  refine ⟨⟨?_, ?_, ?_, ?_, ?_⟩, fun name => ?_, ?_⟩
  · rw [Model.groups_addConstructor]
    exact h.groups_list
  · rw [htypes]
    exact hregroups.names_addConstructor hd
  · rw [htypes]
    exact hregroups.schemaName_addConstructor hd
  · rw [htypes]
    exact hregroups.constructors_addConstructor hd
  · rw [Model.methods_addConstructor, methods_list, List.filter_append,
      List.filter_cons_of_neg (by simp [hd]), List.filter_nil, List.append_nil]
    exact hregroups.methods
  · rw [constructorNames_list, List.mem_cons, h.mem_constructorNames, List.map_append,
      List.mem_append, List.map_singleton, List.mem_singleton, Definition.entity, hd,
      Prod.mk.injEq, or_comm]
    simp only [true_and]
  · rw [lastKey_list, List.getLast?_concat, Option.map_some]

/-- One more method keeps the draft. -/
theorem Holds.concat_method (h : draft.Holds ds) (hd : d.category = .functions) :
    ((draft.list d).define d).Holds (ds ++ [d]) := by
  have hregroups := h.regroups
  have hconstructs : ∀ name, d.constructs name = false := fun _ =>
    Definition.constructs_of_functions hd
  have hdefine : (draft.list d).define d =
      { draft.list d with model := (draft.list d).model.addMethod (.ofDefinition d) } := by
    rw [define, hd]
  have htypes : ((draft.list d).model.addMethod (.ofDefinition d)).types = draft.model.types :=
    types_list
  have hmethods : ((draft.list d).model.addMethod (.ofDefinition d)).methods =
      draft.model.methods ++ [.ofDefinition d] := by
    rw [← methods_list (d := d)]
    rfl
  rw [hdefine]
  refine ⟨⟨h.groups_list, ?_, ?_, ?_, ?_⟩, fun name => ?_, ?_⟩
  · rw [htypes, List.filter_append, List.filter_cons_of_neg (by simp [hd]), List.filter_nil,
      List.append_nil]
    exact hregroups.names
  · rw [htypes]
    exact fun t ht => hregroups.schemaName_concat ht
  · rw [htypes]
    intro t ht
    rw [List.filter_append, List.filter_cons_of_neg (by simp [hconstructs]), List.filter_nil,
      List.append_nil]
    exact hregroups.constructors t ht
  · rw [hmethods, hregroups.methods, List.filter_append, List.map_append,
      List.filter_cons_of_pos (by simp [hd]), List.filter_nil]
    rfl
  · rw [constructorNames_list, h.mem_constructorNames, List.map_append, List.mem_append,
      List.map_singleton, List.mem_singleton, Definition.entity, hd, Prod.mk.injEq]
    simp only [reduceCtorEq, false_and, or_false]
  · rw [lastKey_list, List.getLast?_concat, Option.map_some]

/-- A draft that a definition is listed and added in holds one more. -/
theorem Holds.concat (h : draft.Holds ds) (d : Definition) :
    ((draft.list d).define d).Holds (ds ++ [d]) := by
  cases hd : d.category with
  | types => exact h.concat_constructor hd
  | functions => exact h.concat_method hd

/-! ### Runs -/

/-- Entering a definition keeps a draft in step with those that count. -/
theorem Holds.enter (h : draft.Holds (Model.kept ds)) (d : Definition) :
    (draft.enter d).Holds (Model.kept (ds ++ [d])) := by
  rw [Draft.enter, Model.kept_concat]
  by_cases hknows : draft.knows d = true
  · rw [if_pos hknows, if_pos (h.knows_iff.mp hknows), List.append_nil]
    exact h
  · rw [if_neg hknows, if_neg (hknows ∘ h.knows_iff.mpr)]
    exact h.concat d

/-- After the loop the draft holds of the definitions that count. -/
theorem holds_foldl_enter (ds : List Definition) :
    (ds.foldl Draft.enter .empty).Holds (Model.kept ds) := by
  induction ds using List.reverseRecOn with
  | nil => exact holds_empty
  | append_singleton ds d ih =>
    rw [List.foldl_append]
    exact ih.enter d

end Draft

namespace Model

/-- The loop over the definitions regroups those that count. -/
theorem regroups_ofDefinitions (ds : List Definition) : (ofDefinitions ds).Regroups (kept ds) :=
  (Draft.holds_foldl_enter ds).regroups

end Model

end TypeLang
