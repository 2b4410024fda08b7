import TypeLang.Proofs.Model.Baking

/-!
# Merged members

Baking tells kinds of members apart, which is less than telling the fields of a constructor apart.
The words of a type are appended without a look at the names that are there already, and the numbers
go by kind. So two fields come out under one name exactly when they are of one kind and the words
make their names alike, however they were called before.
-/
namespace TypeLang

open Baking

namespace TaggedType

variable (t : TaggedType) (c : Constructor)

/-- The type with the words of types appended to ambiguous names. -/
def worded : TaggedType := renameType (appendWords (ambiguousNames t.fields)) t

/-- A field of a constructor with the words of its type, where its name is ambiguous. -/
def wordedField (f : Field) : Field :=
  renameField (appendWords (ambiguousNames t.fields) c.fields) c.fields f

/-- What baking makes of a field of a constructor. -/
def bakeField (f : Field) : Field :=
  renameField (numberRest t.worded.fields) (c.fields.map (t.wordedField c)) (t.wordedField c f)

/-- Baking works field by field. -/
theorem bake_eq_map :
    t.bake.1 = { t with constructors := t.constructors.map fun c =>
      { c with fields := c.fields.map (t.bakeField c) } } := by
  have hbake : t.bake.1 = renameType (fun _ => numberRest t.worded.fields) t.worded := rfl
  simp only [hbake, worded, renameType, renameFields, List.map_map, Function.comp_def]
  rfl

variable {t c} {f g : Field}

theorem mem_fields_worded (hc : c ∈ t.constructors) (hf : f ∈ c.fields) :
    t.wordedField c f ∈ t.worded.fields :=
  List.mem_flatMap.mpr ⟨_, List.mem_map_of_mem hc, List.mem_map_of_mem hf⟩

/-- Numbers never bring names together, so what is alike in the end was alike with its words. -/
theorem name_bakeField_eq_iff (hc : c ∈ t.constructors) (hf : f ∈ c.fields) (hg : g ∈ c.fields) :
    (t.bakeField c f).name = (t.bakeField c g).name ↔
      (t.wordedField c f).name = (t.wordedField c g).name ∧ f.kind = g.kind := by
  have hkind : ∀ k, (t.wordedField c k).kind = k.kind := fun _ => kind_renameField _
  constructor
  · intro h
    have hsame := eq_of_numberRest (mem_fields_worded hc hf) (mem_fields_worded hc hg) h
    rwa [hkind, hkind] at hsame
  · rintro ⟨hname, hsame⟩
    simp only [bakeField, renameField, hkind, hname, hsame]

end TaggedType

/-- Baking a model is baking each field, and it gives two fields of a constructor that have
different names one name exactly when they are of one kind and have one name with the words of
their types. -/
theorem Model.bake_merges_iff (m : Model) :
    m.bake.1.types = m.types.map (fun t =>
      { t with constructors := t.constructors.map fun c =>
        { c with fields := c.fields.map (t.bakeField c) } }) ∧
    ∀ t ∈ m.types, ∀ c ∈ t.constructors, ∀ f ∈ c.fields, ∀ g ∈ c.fields, f.name ≠ g.name →
      ((t.bakeField c f).name = (t.bakeField c g).name ↔
        (t.wordedField c f).name = (t.wordedField c g).name ∧ f.kind = g.kind) := by
  constructor
  · simp only [Model.bake, List.map_map]
    exact List.map_congr_left fun t _ => t.bake_eq_map
  · intro t _ c hc f hf g hg _
    exact TaggedType.name_bakeField_eq_iff hc hf hg

/-- A field that gets, with words, the name of another one of its type. -/
def siblingText : String := "a#1 x:int xQuint32:int = T;\nb#2 x:long = T;"

def siblingModel : Model := Model.ofDefinitions (definitionsOf siblingText)

/-- The two fields of the first constructor are merged. -/
theorem bake_merges_sibling :
    (siblingModel.bake.1.types.flatMap (·.constructors)).map (fun c => c.fields.map (·.name)) =
      [["xQuint32", "xQuint32"], ["xQuint64"]] ∧
    ∃ t ∈ siblingModel.types, ∃ c ∈ t.constructors, ∃ f ∈ c.fields, ∃ g ∈ c.fields,
      f.name ≠ g.name ∧ (t.bakeField c f).name = (t.bakeField c g).name := by
  have hrun : (siblingModel.bake.1.types.flatMap (·.constructors)).map
        (fun c => c.fields.map (·.name)) = [["xQuint32", "xQuint32"], ["xQuint64"]] ∧
      ∃ t ∈ siblingModel.types, ∃ c ∈ t.constructors, ∃ f ∈ c.fields, ∃ g ∈ c.fields,
        f.name ≠ g.name ∧
          (t.wordedField c f).name = (t.wordedField c g).name ∧ f.kind = g.kind := by
    decide +kernel
  obtain ⟨hnames, t, ht, c, hc, f, hf, g, hg, hne, halike⟩ := hrun
  have hmerged := (siblingModel.bake_merges_iff.2 t ht c hc f hf g hg hne).mpr halike
  exact ⟨hnames, t, ht, c, hc, f, hf, g, hg, hne, hmerged⟩

end TypeLang
