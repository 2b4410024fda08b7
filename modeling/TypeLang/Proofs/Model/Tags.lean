import Mathlib
import TypeLang.Proofs.Model.Derived

/-!
# Tags tell entities apart

The tag of an entity is its name with a capital in front. Names of entities start with what is no
capital, so the tag gives the name back, and since definitions that count have different names, the
constructors of a type have different tags and so have the methods.
-/
namespace TypeLang

namespace Naming

/-! ## Letters -/

theorem toLower_toUpper (c : Char) : c.toUpper.toLower = c.toLower := by
  by_cases hlower : 'a'.val ≤ c.val ∧ c.val ≤ 'z'.val
  · have hupper : ¬(c.val ≥ 'A'.val ∧ c.val ≤ 'Z'.val) := by
      rintro ⟨-, h⟩
      exact absurd (UInt32.le_trans hlower.1 h) (by decide)
    have hback : c.val + ('A'.val - 'a'.val) ≥ 'A'.val ∧ c.val + ('A'.val - 'a'.val) ≤ 'Z'.val := by
      simp only [ge_iff_le, UInt32.le_iff_toNat_le, UInt32.toNat_add] at hlower ⊢
      simp only [Char.reduceVal, UInt32.reduceToNat, UInt32.reduceSub] at hlower ⊢
      omega
    simp only [Char.toUpper, Char.toLower, dif_pos hlower, dif_pos hback, dif_neg hupper]
    apply Char.ext
    simp [UInt32.add_assoc]
  · simp only [Char.toUpper, dif_neg hlower]

theorem toLower_toLower (c : Char) : c.toLower.toLower = c.toLower := by
  by_cases hupper : c.val ≥ 'A'.val ∧ c.val ≤ 'Z'.val
  · have hdone : ¬(c.val + ('a'.val - 'A'.val) ≥ 'A'.val ∧
        c.val + ('a'.val - 'A'.val) ≤ 'Z'.val) := by
      simp only [ge_iff_le, UInt32.le_iff_toNat_le, UInt32.toNat_add] at hupper ⊢
      simp only [Char.reduceVal, UInt32.reduceToNat, UInt32.reduceSub] at hupper ⊢
      omega
    simp only [Char.toLower, dif_pos hupper, dif_neg hdone]
  · simp only [Char.toLower, dif_neg hupper]

/-! ## Names and tags -/

theorem mapFirst_mapFirst (f g : Char → Char) (s : String) :
    mapFirst f (mapFirst g s) = mapFirst (f ∘ g) s := by
  cases h : s.toList with
  | nil => simp [mapFirst, h]
  | cons c cs => simp [mapFirst, h]

/-- The tag of an entity gives its name back. -/
theorem mapFirst_toLower_tag (name : String) :
    mapFirst Char.toLower (tag (entity name)) = entity name := by
  have hcase : (Char.toLower ∘ Char.toUpper) ∘ Char.toLower = Char.toLower := by
    funext c
    rw [Function.comp_apply, Function.comp_apply, toLower_toUpper, toLower_toLower]
  rw [tag, entity, camel, upperFirst, mapFirst_mapFirst, mapFirst_mapFirst, hcase]

theorem tag_inj {a b : String} (h : tag (entity a) = tag (entity b)) : entity a = entity b := by
  rw [← mapFirst_toLower_tag a, h, mapFirst_toLower_tag]

end Naming

namespace Model

variable {ds es : List Definition} {m : Model}

theorem tag_comp_constructor : Constructor.tag ∘ Constructor.ofDefinition = Definition.tag := by
  funext d
  simp only [Function.comp_apply, Constructor.tag, Constructor.ofDefinition, Definition.tag]

theorem tag_comp_method : Method.tag ∘ Method.ofDefinition = Definition.tag := by
  funext d
  simp only [Function.comp_apply, Method.tag, Method.ofDefinition, Definition.tag]

/-- Among definitions of one category that count, each has its own tag. -/
theorem nodup_map_tag {category : Category}
    (h : es.Sublist ((kept ds).filter (·.category == category))) :
    (es.map Definition.tag).Nodup := by
  have hkeys : (es.map Definition.entity).Nodup :=
    ((h.trans List.filter_sublist).map _).nodup nodup_map_distinctBy
  rw [List.Nodup, List.pairwise_map] at hkeys ⊢
  refine hkeys.imp_of_mem fun {d e} hd he hne htag => hne ?_
  have hcategory : ∀ d ∈ es, d.category = category := fun d hd => by
    simpa using (List.mem_filter.mp (h.subset hd)).2
  rw [Definition.entity, Definition.entity, hcategory d hd, hcategory e he, Prod.mk.injEq]
  exact ⟨rfl, Naming.tag_inj htag⟩

@[simp] theorem map_tag_wrapType (e : Edge) (t : TaggedType) :
    (e.wrapType t).constructors.map Constructor.tag = t.constructors.map Constructor.tag := by
  simp only [Edge.wrapType]
  split
  · rw [List.map_map]
    rfl
  · rfl

@[simp] theorem map_tag_renameType (rename : List Field → Baking.Renaming) (t : TaggedType) :
    (Baking.renameType rename t).constructors.map Constructor.tag =
      t.constructors.map Constructor.tag := by
  simp only [Baking.renameType, List.map_map]
  rfl

/-- The constructors of a type have different tags. -/
theorem Derived.nodup_constructor_tags (h : Derived ds m) :
    ∀ t ∈ m.types, (t.constructors.map Constructor.tag).Nodup := by
  refine h.forall_types (P := fun t => (t.constructors.map Constructor.tag).Nodup) ?_ ?_ ?_
  · intro t ht
    obtain ⟨es, hes, heq⟩ := constructors_of_mem_types ht
    rw [heq, List.map_map, tag_comp_constructor]
    exact nodup_map_tag hes
  · intro e t ht
    rwa [map_tag_wrapType]
  · intro t ht
    refine bake_of_renameType (P := fun t => (t.constructors.map Constructor.tag).Nodup) ?_ ht
    intro rename t ht
    rwa [map_tag_renameType]

/-- The methods have different tags. -/
theorem Derived.nodup_method_tags (h : Derived ds m) : (m.methods.map Method.tag).Nodup := by
  rw [h.methods_eq, methods_ofDefinitions, List.map_map, tag_comp_method]
  exact nodup_map_tag (List.Sublist.refl _)

theorem Derived.nodup_method_names (h : Derived ds m) : (m.methods.map (·.name)).Nodup := by
  have htags : ((m.methods.map (·.name)).map Naming.tag).Nodup := by
    rw [List.map_map]
    exact h.nodup_method_tags
  exact htags.of_map

end Model

end TypeLang
