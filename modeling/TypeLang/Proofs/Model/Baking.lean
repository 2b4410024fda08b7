import Mathlib.Data.List.Nodup
import Mathlib.Data.List.Perm.Subperm
import TypeLang.Proofs.Model.Derived
import TypeLang.Proofs.Schema.Statement

/-!
# Baked types

In a baked type a member name stands for one kind of member. The words appended first need not
achieve this, whatever names they make; it is the numbers that do: they give every kind but the
first a name that nothing else has. Baking renames members and nothing else, and has nothing to do
on a type of this form.
-/
namespace TypeLang

/-- Every name stands for one kind of member. -/
def TaggedType.Uniform (t : TaggedType) : Prop :=
  ∀ f ∈ t.fields, ∀ g ∈ t.fields, f.name = g.name → f.kind = g.kind

/-! ## Everything but the names of members -/

/-- The field without its name and without that of its flags word. -/
def Field.unnamed (f : Field) : Field :=
  { f with name := "", gate := f.gate.map fun g => { g with member := "" } }

/-- The type without the names of its members. -/
def TaggedType.unnamed (t : TaggedType) : TaggedType :=
  { t with constructors := t.constructors.map fun c =>
      { c with fields := c.fields.map Field.unnamed } }

/-- The model without the names of members. -/
def Model.unnamed (m : Model) : Model :=
  { m with
    types := m.types.map TaggedType.unnamed
    typeIndex_eq := by
      rw [List.map_map, m.typeIndex_eq]
      rfl }

namespace Baking

section Renaming

variable {rename : Renaming} {fields : List Field}

@[simp] theorem unnamed_renameField (f : Field) :
    (renameField rename fields f).unnamed = f.unnamed := by
  simp [Field.unnamed, renameField, Function.comp_def]

@[simp] theorem kind_renameField (f : Field) : (renameField rename fields f).kind = f.kind := by
  simp [Field.kind, Field.isMark, renameField]

@[simp] theorem unnamed_renameType (rename : List Field → Renaming) (t : TaggedType) :
    (renameType rename t).unnamed = t.unnamed := by
  simp [TaggedType.unnamed, renameType, renameFields, Function.comp_def]

/-- A field of a renamed type is a field of the type under its new name. -/
theorem exists_of_mem_fields_renameType {rename : List Field → Renaming} {t : TaggedType}
    {f : Field} (h : f ∈ (renameType rename t).fields) :
    ∃ c ∈ t.constructors, ∃ b ∈ c.fields, f = renameField (rename c.fields) c.fields b := by
  obtain ⟨renamed, hrenamed, hf⟩ := List.mem_flatMap.mp h
  obtain ⟨c, hc, rfl⟩ := Model.mem_constructors_renameType hrenamed
  obtain ⟨b, hb, rfl⟩ := List.mem_map.mp hf
  exact ⟨c, hc, b, hb, rfl⟩

/-! ## Renamings that keep every name -/

/-- A renaming that names nothing keeps the fields. -/
theorem renameField_of_none (h : ∀ name kind, rename name kind = none) (f : Field) :
    renameField rename fields f = f := by
  have hword : ∀ member, renamedWord? rename fields member = none := by
    intro member
    rw [renamedWord?, List.findSome?_eq_none_iff]
    simp [h]
  rcases f with ⟨name, type, schemaType, gate⟩
  simp [renameField, h, hword]

theorem renameType_of_none {rename : List Field → Renaming}
    (h : ∀ fields name kind, rename fields name kind = none) (t : TaggedType) :
    renameType rename t = t := by
  have hfields : ∀ fields : List Field, renameFields (rename fields) fields = fields := by
    intro fields
    rw [renameFields, funext (renameField_of_none (h fields)), List.map_id']
  simp [renameType, hfields]

@[simp] theorem foldr_add_replicate_zero (n : Nat) :
    (List.replicate n 0).foldr (· + ·) 0 = 0 := by
  induction n with
  | zero => rfl
  | succ n ih => rw [List.replicate_succ, List.foldr_cons, ih]

theorem countType_of_none {rename : List Field → Renaming}
    (h : ∀ fields name kind, rename fields name kind = none) (t : TaggedType) :
    countType rename t = 0 := by
  have hcount : ∀ fields : List Field, renamedCount (rename fields) fields = 0 := by
    intro fields
    simp [renamedCount, h]
  simp [countType, hcount]

end Renaming

/-! ## Kinds of a name -/

section Kinds

variable {fields : List Field} {name : String} {kind : MemberKind}

@[simp] theorem mem_namesOf : name ∈ namesOf fields ↔ ∃ f ∈ fields, f.name = name := by
  simp [namesOf]

@[simp] theorem mem_kindsOf :
    kind ∈ kindsOf fields name ↔ ∃ f ∈ fields, f.name = name ∧ f.kind = kind := by
  simp [kindsOf, and_assoc]

theorem nodup_kindsOf (fields : List Field) (name : String) : (kindsOf fields name).Nodup :=
  nodup_distinct

/-- No name is ambiguous where each stands for one kind. -/
theorem ambiguousNames_of_uniform
    (h : ∀ f ∈ fields, ∀ g ∈ fields, f.name = g.name → f.kind = g.kind) :
    ambiguousNames fields = [] := by
  rw [ambiguousNames, List.filter_eq_nil_iff]
  intro name _
  rw [decide_eq_true_eq, Nat.not_lt]
  cases hkinds : kindsOf fields name with
  | nil => exact Nat.zero_le 1
  | cons first rest =>
    cases rest with
    | nil => exact Nat.le_refl 1
    | cons second rest =>
      have hfirst : first ∈ kindsOf fields name := by simp [hkinds]
      have hsecond : second ∈ kindsOf fields name := by simp [hkinds]
      obtain ⟨f, hf, rfl, rfl⟩ := mem_kindsOf.mp hfirst
      obtain ⟨g, hg, hname, rfl⟩ := mem_kindsOf.mp hsecond
      -- The two kinds are one, so the list repeats it.
      have hnodup := nodup_kindsOf fields f.name
      rw [hkinds, h f hf g hg hname.symm] at hnodup
      simp at hnodup

end Kinds

/-! ## Numbers -/

/-- A name with a number behind it gives the number back. -/
theorem numbered_injective (name : String) :
    Function.Injective fun n : Nat => name ++ toString n := by
  intro i j hij
  have hdigits := (String.append_right_inj name).mp hij
  simp only [Nat.toString_eq_repr, Nat.repr_eq_ofList_toDigits, String.ofList_inj] at hdigits
  have hvalue := congrArg (Nat.ofDigitChars 10 · 0) hdigits
  simpa [Nat.ofDigitChars_toDigits] using hvalue

/-- One candidate more than there are taken names is enough to find one that is not taken. -/
theorem freshName_notMem (taken : List String) (name : String) : freshName taken name ∉ taken := by
  simp only [freshName]
  cases hfind : (List.range' 2 (taken.length + 1)).find? fun n => name ++ toString n ∉ taken with
  | some n => simpa using List.find?_some hfind
  | none =>
    have htaken : ((List.range' 2 (taken.length + 1)).map fun n => name ++ toString n) ⊆ taken := by
      intro candidate hcandidate
      obtain ⟨n, hn, rfl⟩ := List.mem_map.mp hcandidate
      simpa using List.find?_eq_none.mp hfind n hn
    have hnodup := (List.nodup_range' (s := 2) (n := taken.length + 1) 1).map
      (numbered_injective name)
    have hlength := (hnodup.subperm htaken).length_le
    rw [List.length_map, List.length_range'] at hlength
    omega

section Numbers

variable {taken : List String} {rest : List (String × MemberKind)}

/-- Every kind that is left gets a numbered name. -/
theorem exists_mem_numberKinds (taken : List String) {key : String × MemberKind}
    (h : key ∈ rest) : ∃ entry ∈ numberKinds taken rest, entry.1 = key := by
  induction rest generalizing taken with
  | nil => simp at h
  | cons first rest ih =>
    rcases List.mem_cons.mp h with rfl | h
    · exact ⟨_, List.mem_cons_self, rfl⟩
    · obtain ⟨entry, hentry, hkey⟩ := ih _ h
      exact ⟨entry, List.mem_cons_of_mem _ hentry, hkey⟩

/-- A numbered name is new. -/
theorem notMem_taken_of_mem_numberKinds {entry : (String × MemberKind) × String}
    (h : entry ∈ numberKinds taken rest) : entry.2 ∉ taken := by
  induction rest generalizing taken with
  | nil => simp [numberKinds] at h
  | cons first rest ih =>
    rcases List.mem_cons.mp h with rfl | h
    · exact freshName_notMem taken first.1
    · exact fun hmem => ih h (List.mem_cons_of_mem _ hmem)

/-- No number is given twice. -/
theorem nodup_numberKinds : ((numberKinds taken rest).map (·.2)).Nodup := by
  induction rest generalizing taken with
  | nil => exact List.nodup_nil
  | cons first rest ih =>
    simp only [numberKinds, List.map_cons, List.nodup_cons]
    refine ⟨fun hmem => ?_, ih⟩
    obtain ⟨entry, hentry, hsame⟩ := List.mem_map.mp hmem
    exact notMem_taken_of_mem_numberKinds hentry (hsame ▸ List.mem_cons_self)

theorem mem_of_lookup {entries : List ((String × MemberKind) × String)} {key : String × MemberKind}
    {name : String} (h : entries.lookup key = some name) : (key, name) ∈ entries := by
  obtain ⟨front, back, rfl, -⟩ := List.lookup_eq_some_iff.mp h
  simp

end Numbers

section NumberRest

variable {fields : List Field} {f g : Field} {name : String}

/-- A number is no name that was there before. -/
theorem notMem_namesOf_of_numberRest {kind : MemberKind} {new : String}
    (h : numberRest fields name kind = some new) : new ∉ namesOf fields :=
  notMem_taken_of_mem_numberKinds (mem_of_lookup h)

/-- Two names with one number are one, and so are their kinds. -/
theorem numberRest_inj {kind kind' : MemberKind} {name' new : String}
    (h : numberRest fields name kind = some new) (h' : numberRest fields name' kind' = some new) :
    name = name' ∧ kind = kind' := by
  have hsame :=
    List.inj_on_of_nodup_map nodup_numberKinds (mem_of_lookup h) (mem_of_lookup h') rfl
  simp only [Prod.mk.injEq] at hsame
  exact hsame.1

/-- A kind without a number is the first of its name. -/
theorem head?_kindsOf_of_numberRest (hf : f ∈ fields) (h : numberRest fields f.name f.kind = none) :
    (kindsOf fields f.name).head? = some f.kind := by
  have hmem : f.kind ∈ kindsOf fields f.name := mem_kindsOf.mpr ⟨f, hf, rfl, rfl⟩
  cases hkinds : kindsOf fields f.name with
  | nil => simp [hkinds] at hmem
  | cons first others =>
    rw [List.head?_cons]
    rw [hkinds] at hmem
    rcases List.mem_cons.mp hmem with hfirst | hother
    · rw [hfirst]
    · -- A later kind is numbered.
      have hambiguous : f.name ∈ ambiguousNames fields := by
        refine List.mem_filter.mpr ⟨mem_namesOf.mpr ⟨f, hf, rfl⟩, ?_⟩
        have := List.length_pos_of_mem hother
        simp only [hkinds, List.length_cons, decide_eq_true_eq]
        omega
      have hlisted : (f.name, f.kind) ∈ (ambiguousNames fields).flatMap fun name =>
          ((kindsOf fields name).drop 1).map (name, ·) :=
        List.mem_flatMap.mpr ⟨f.name, hambiguous, by simpa [hkinds] using hother⟩
      obtain ⟨entry, hentry, hkey⟩ := exists_mem_numberKinds (namesOf fields) hlisted
      have hne := List.lookup_eq_none_iff.mp h entry hentry
      simp [hkey] at hne

/-- Under its number, or under its name where it has none, a kind is told from all others. Names
that differed before still do. -/
theorem eq_of_numberRest (hf : f ∈ fields) (hg : g ∈ fields)
    (h : (numberRest fields f.name f.kind).getD f.name =
      (numberRest fields g.name g.kind).getD g.name) : f.name = g.name ∧ f.kind = g.kind := by
  cases hnew : numberRest fields f.name f.kind with
  | some new =>
    cases hnew' : numberRest fields g.name g.kind with
    | some new' =>
      rw [hnew, hnew', Option.getD_some, Option.getD_some] at h
      exact numberRest_inj hnew (h ▸ hnew')
    | none =>
      rw [hnew, hnew', Option.getD_some, Option.getD_none] at h
      exact absurd (mem_namesOf.mpr ⟨g, hg, h.symm⟩) (notMem_namesOf_of_numberRest hnew)
  | none =>
    cases hnew' : numberRest fields g.name g.kind with
    | some new' =>
      rw [hnew, hnew', Option.getD_none, Option.getD_some] at h
      exact absurd (mem_namesOf.mpr ⟨f, hf, h⟩) (notMem_namesOf_of_numberRest hnew')
    | none =>
      rw [hnew, hnew', Option.getD_none, Option.getD_none] at h
      have hfirst := head?_kindsOf_of_numberRest hf hnew
      rw [h, head?_kindsOf_of_numberRest hg hnew'] at hfirst
      exact ⟨h, (Option.some.inj hfirst).symm⟩

end NumberRest

end Baking

open Baking

namespace TaggedType

/-- The last step numbers kinds. -/
theorem exists_bake_eq (t : TaggedType) :
    ∃ u : TaggedType, t.bake.1 = renameType (fun _ => numberRest u.fields) u := ⟨_, rfl⟩

/-- After baking a name has one kind in each type. -/
theorem uniform_bake (t : TaggedType) : t.bake.1.Uniform := by
  obtain ⟨u, hu⟩ := t.exists_bake_eq
  rw [hu]
  intro f hf g hg hname
  obtain ⟨b, hb, k, hk, rfl⟩ := exists_of_mem_fields_renameType hf
  obtain ⟨c, hc, l, hl, rfl⟩ := exists_of_mem_fields_renameType hg
  rw [kind_renameField, kind_renameField]
  exact (eq_of_numberRest (List.mem_flatMap.mpr ⟨b, hb, hk⟩) (List.mem_flatMap.mpr ⟨c, hc, hl⟩)
    hname).2

/-- Baking changes nothing but names. -/
theorem unnamed_bake (t : TaggedType) : t.bake.1.unnamed = t.unnamed := by
  simp [bake]

/-- Baking a uniform type changes nothing. -/
theorem Uniform.bake {t : TaggedType} (h : t.Uniform) : t.bake = (t, 0) := by
  have hnone := ambiguousNames_of_uniform h
  have hwords : ∀ fields name kind,
      appendWords (ambiguousNames t.fields) fields name kind = none := by
    intro fields name kind
    simp [appendWords, hnone]
  have hnumbers : ∀ name kind, numberRest t.fields name kind = none := by
    intro name kind
    simp [numberRest, hnone, numberKinds]
  simp only [TaggedType.bake, renameType_of_none hwords, countType_of_none hwords,
    renameType_of_none fun _ => hnumbers, countType_of_none fun _ => hnumbers]

end TaggedType

theorem Model.uniform_of_mem_bake {m : Model} {t : TaggedType} (ht : t ∈ m.bake.1.types) :
    t.Uniform := by
  simp only [Model.bake, List.map_map, List.mem_map] at ht
  obtain ⟨u, -, rfl⟩ := ht
  exact u.uniform_bake

/-- In the types of a baked model every name stands for one kind of member. Up to the names of
members and of the flags words in gates the model is what it was, and baking it again renames
nothing. -/
theorem Model.bake_uniform (m : Model) :
    (∀ t ∈ m.bake.1.types, ∀ f ∈ t.fields, ∀ g ∈ t.fields, f.name = g.name → f.kind = g.kind) ∧
    m.bake.1.unnamed = m.unnamed ∧
    m.bake.1.bake = (m.bake.1, 0) := by
  have huniform : ∀ t ∈ m.bake.1.types, t.Uniform := by
    intro t ht
    simp only [Model.bake, List.map_map, List.mem_map] at ht
    obtain ⟨u, -, rfl⟩ := ht
    exact u.uniform_bake
  refine ⟨huniform, ?_, ?_⟩
  · simp [Model.unnamed, Model.bake, Function.comp_def, TaggedType.unnamed_bake]
  · have hbake : m.bake.1.types.map TaggedType.bake = m.bake.1.types.map fun t => (t, 0) :=
      List.map_congr_left fun t ht => (huniform t ht).bake
    generalize m.bake.1 = baked at hbake
    simp [Model.bake, hbake, Function.comp_def]

/-- A mark and two truth values under one name, which get the same words. -/
def pinnedText : String :=
  "a#1 flags:# pinned:flags.0?true = T;\nb#2 pinned:Bool = T;\nc#3 pinned:Bool = T;"

def pinnedModel : Model := (Model.ofDefinitions (definitionsOf pinnedText)).bake.1

/-- The two truth values share a number, and the name they have then is one of truth values. -/
theorem bake_uniform_pinnedModel :
    (pinnedModel.types.flatMap (·.fields)).map (·.name) =
      ["flags", "pinnedBool", "pinnedBool2", "pinnedBool2"] ∧
    (∃ t ∈ pinnedModel.types, ∃ f ∈ t.fields, f.name = "pinnedBool2" ∧
      ∀ g ∈ t.fields, "pinnedBool2" = g.name → g.kind = f.kind) ∧
    pinnedModel.bake.2 = 0 := by
  have hrun : (pinnedModel.types.flatMap (·.fields)).map (·.name) =
      ["flags", "pinnedBool", "pinnedBool2", "pinnedBool2"] ∧
      ∃ t ∈ pinnedModel.types, ∃ f ∈ t.fields, f.name = "pinnedBool2" := by decide +kernel
  obtain ⟨hnames, t, ht, f, hf, hname⟩ := hrun
  obtain ⟨huniform, -, hagain⟩ := (Model.ofDefinitions (definitionsOf pinnedText)).bake_uniform
  refine ⟨hnames, ⟨t, ht, f, hf, hname, fun g hg hsame => ?_⟩, congrArg (·.2) hagain⟩
  exact huniform t ht g hg f hf (hsame.symm.trans hname.symm)

end TypeLang
