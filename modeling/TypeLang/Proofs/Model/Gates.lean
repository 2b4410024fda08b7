import TypeLang.Proofs.Model.Derived
import TypeLang.Proofs.Schema.Gates

/-!
# Gates of a model

The gates of a schema are declared, and no step on the way to the emitted code changes that: turning
parameters into fields renames words and gates alike, cutting edges leaves flags words alone, and
baking renames a gate with the flags word it looks at.
-/
namespace TypeLang

namespace TargetType

/-- The flags word in a field type maps to a word, also where the schema gates it. -/
theorem ofTypeExpr_of_text {type : TypeExpr} (h : type.text = "#") :
    ofTypeExpr type = .plain "quint32" := by
  cases type with
  | applied name argument =>
    have hmem : '<' ∈ (TypeExpr.applied name argument).text.toList := by
      simp [TypeExpr.text]
    rw [h] at hmem
    simp at hmem
  | named name =>
    simp only [TypeExpr.text] at h
    have hvector : (TypeExpr.named name).isVector = false := by
      rcases name with ⟨path, base⟩
      cases path with
      | nil =>
        simp only [QualifiedName.text, List.foldr_nil] at h
        subst h
        rfl
      | cons _ _ => rfl
    simp only [ofTypeExpr, hvector, ofTypeExpr.named, h]
    rfl

theorem eq_of_ofChars {cs : List Char} {name : String} (h : ofChars cs = .plain name) :
    name.toList = cs := by
  rw [ofChars] at h
  split at h
  · cases h
  · split at h
    · cases h
    · cases h
      exact String.toList_ofList

end TargetType

namespace Field

/-- The flags word that a field declares. -/
def declared? (f : Field) : Option String := if f.isWord then some f.name else none

/-- The flags word that the gate of a field looks at. -/
def needed? (f : Field) : Option String := f.gate.map (·.member)

theorem isMark_of_isWord {f : Field} (h : f.isWord) : f.isMark = false := by
  simp only [isWord, beq_iff_eq] at h
  simp [isMark, h]

theorem mem_declared? {f : Field} {name : String} :
    name ∈ f.declared? ↔ f.isWord ∧ f.name = name := by
  simp [declared?]

/-- Gates look at flags words in front of them, and flags words are words. -/
structure Gated (fields : List Field) : Prop where
  inScope : Scoped declared? needed? [] fields
  type_of_isWord : ∀ f ∈ fields, f.isWord → f.type = .plain "quint32"

theorem Gated.exists_word {fields : List Field} {f : Field} {g : FieldGate} (h : Gated fields)
    (hf : f ∈ fields) (hg : f.gate = some g) : ∃ w ∈ fields, w.isWord ∧ w.name = g.member := by
  have hneeded : g.member ∈ f.needed? := by simp [needed?, hg]
  rcases h.inScope.exists_declared hf hneeded with hscope | ⟨w, hw, hdeclared⟩
  · cases hscope
  · exact ⟨w, hw, mem_declared?.mp hdeclared⟩

/-- What keeps the type of a flags word and renames words and gates alike keeps the gates
declared. -/
theorem Gated.map {fields : List Field} {step : Field → Field} (h : Gated fields)
    (rename : String → String) (hword : ∀ f ∈ fields, (step f).isWord = f.isWord)
    (htype : ∀ f ∈ fields, f.isWord → (step f).type = f.type)
    (hname : ∀ f ∈ fields, f.isWord → (step f).name = rename f.name)
    (hgate : ∀ f ∈ fields, (step f).needed? = f.needed?.map rename) : Gated (fields.map step) := by
  constructor
  · refine h.inScope.map rename ?_ ?_
    · intro f hf name hdeclared
      obtain ⟨hw, rfl⟩ := mem_declared?.mp hdeclared
      exact mem_declared?.mpr ⟨by rw [hword f hf, hw], hname f hf hw⟩
    · intro f hf name hneeded
      rw [hgate f hf] at hneeded
      obtain ⟨old, hold, rfl⟩ := Option.map_eq_some_iff.mp hneeded
      exact ⟨old, hold, rfl⟩
  · intro g hg hw
    obtain ⟨f, hf, rfl⟩ := List.mem_map.mp hg
    rw [hword f hf] at hw
    rw [htype f hf hw, h.type_of_isWord f hf hw]

/-! ## Parameters as fields -/

/-- Gated parameters become gated fields. -/
theorem gated_ofParameter {ps : List Parameter} (h : Parameter.Gated ps) :
    Gated (ps.map .ofParameter) := by
  constructor
  · refine Scoped.map Naming.member ?_ ?_ h
    · intro p _ name hdeclared
      simp only [Parameter.declared?] at hdeclared
      split at hdeclared
      · next hflags =>
        cases hdeclared
        simp [declared?, isWord, ofParameter, hflags]
      · cases hdeclared
    · intro p _ name hneeded
      simp only [needed?, ofParameter] at hneeded
      split at hneeded
      · cases hneeded
      · next type gate htype =>
        simp only [Option.map_map, Option.mem_def, Option.map_eq_some_iff,
          Function.comp_apply] at hneeded
        obtain ⟨old, hold, hname⟩ := hneeded
        refine ⟨old.word, ?_, hname.symm⟩
        simp [Parameter.needed?, htype, ParameterType.gate?, hold]
  · intro f hf hw
    obtain ⟨p, -, rfl⟩ := List.mem_map.mp hf
    simp only [ofParameter, isWord, beq_iff_eq] at hw ⊢
    split at hw
    · rfl
    · exact TargetType.ofTypeExpr_of_text hw

end Field

namespace Model

/-! ## Cutting edges -/

/-- Generated names have initials that no built-in word has. -/
theorem Edge.memberType_ne_word (e : Edge) : e.memberType ≠ .plain "quint32" := by
  intro h
  have hchars := TargetType.eq_of_ofChars h
  simp [TargetType.generatedName, TargetType.initials, String.toList_append] at hchars

/-- Cutting an edge keeps fields gated. -/
theorem Edge.gated_wrapField (e : Edge) {fields : List Field} (h : Field.Gated fields) :
    Field.Gated (fields.map e.wrapField) := by
  refine h.map id (fun _ _ => rfl) ?_ (fun _ _ _ => rfl) (fun f _ => by
    simp [Edge.wrapField, Field.needed?])
  intro f hf hw
  have htype := h.type_of_isWord f hf hw
  simp [Edge.wrapField, TargetType.wrap?, htype, Ne.symm e.memberType_ne_word]

/-! ## Baking -/

/-- Words of one name are renamed alike, so the gates that look at the name follow all of them. -/
theorem renamedWord?_of_mem {rename : Baking.Renaming} {fields : List Field}
    (h : Field.Gated fields) {f : Field} (hf : f ∈ fields) (hw : f.isWord) :
    Baking.renamedWord? rename fields f.name = rename f.name f.kind := by
  have hkind : ∀ g ∈ fields, g.isWord → g.kind = .value (.plain "quint32") := by
    intro g hg hgw
    simp [Field.kind, Field.isMark_of_isWord hgw, h.type_of_isWord g hg hgw]
  refine findSome?_eq_of_forall ⟨f, hf, by simp [hw]⟩ fun g hg => ?_
  split
  · next hmatch =>
    rw [Bool.and_eq_true, beq_iff_eq] at hmatch
    exact .inr (by rw [hmatch.2, hkind g hg hmatch.1, hkind f hf hw])
  · exact .inl rfl

/-- Renaming keeps fields gated. -/
theorem gated_renameFields {rename : Baking.Renaming} {fields : List Field}
    (h : Field.Gated fields) : Field.Gated (Baking.renameFields rename fields) := by
  refine h.map (fun name => (Baking.renamedWord? rename fields name).getD name)
    (fun _ _ => rfl) (fun _ _ _ => rfl) ?_ ?_
  · intro f hf hw
    simp [Baking.renameField, renamedWord?_of_mem h hf hw]
  · intro f _
    simp [Baking.renameField, Field.needed?, Function.comp_def]

/-! ## Derived models -/

variable {ds : List Definition} {m : Model}

/-- In every constructor of a model the gates are declared. -/
theorem Derived.gated_constructor (hds : Parsed ds) (h : Derived ds m) :
    ∀ t ∈ m.types, ∀ c ∈ t.constructors, Field.Gated c.fields := by
  refine h.forall_types (P := fun t => ∀ c ∈ t.constructors, Field.Gated c.fields) ?_ ?_ ?_
  · intro t ht c hc
    obtain ⟨d, hd, rfl⟩ := exists_definition_of_mem_constructors ht hc
    exact Field.gated_ofParameter (hds.gated hd)
  · intro e t ht c hc
    obtain ⟨b, hb, rfl | rfl⟩ := mem_constructors_wrapType hc
    · exact ht c hb
    · exact e.gated_wrapField (ht b hb)
  · intro t ht
    refine bake_of_renameType (P := fun t => ∀ c ∈ t.constructors, Field.Gated c.fields) ?_ ht
    intro rename t ht c hc
    obtain ⟨b, hb, rfl⟩ := mem_constructors_renameType hc
    exact gated_renameFields (ht b hb)

/-- In every method of a model the gates are declared. -/
theorem Derived.gated_method (hds : Parsed ds) (h : Derived ds m) :
    ∀ method ∈ m.methods, Field.Gated method.fields := by
  intro method hmethod
  rw [h.methods_eq] at hmethod
  obtain ⟨d, hd, -, rfl⟩ := mem_methods_ofDefinitions hmethod
  exact Field.gated_ofParameter (hds.gated ((kept_sublist ds).subset hd))

end Model

end TypeLang
