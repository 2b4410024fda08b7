import TypeLang.Model.Reach
import TypeLang.Proofs.Model.Lookup

/-!
# Walks

What a walk meets, as a relation: it starts from the roots, takes vectors and pointers apart, and
goes from a type that it enters to the types of the fields that carry a value. `Model.reach` finds
exactly what is met this way, on cycles too: every name it has found has been entered, so nothing
can be met that it has not found.
-/
namespace TypeLang

/-- What is met on a walk from the types in `roots`; `enters` says which defined types the walk goes
into from a type that it meets. -/
inductive Model.Met (m : Model) (enters : TargetType → TaggedType → Prop)
    (roots : TargetType → Prop) : TargetType → Prop
  | root {type : TargetType} : roots type → m.Met enters roots type
  | item {item : TargetType} : m.Met enters roots (.vector item) → m.Met enters roots item
  | target {target : TargetType} : m.Met enters roots (.pointer target) → m.Met enters roots target
  | field {type : TargetType} {t : TaggedType} {f : Field} : m.Met enters roots type →
    t ∈ m.types → enters type t → f ∈ wireFields t.fields → m.Met enters roots f.type

namespace Reach

/-- Going into the defined types that are neither built in nor closed, from their plain names. -/
def Enters (closed : List String) (type : TargetType) (t : TaggedType) : Prop :=
  type = .plain t.name ∧ t.isBuiltin = false ∧ t.name ∉ closed

/-- Everything on the way from a type to its base has been found. -/
def Covers (r : Reach) : TargetType → Prop
  | .plain name => TargetType.isBuiltin name = false → name ∈ r.types
  | .vector item => .vector item ∈ r.vectors ∧ r.Covers item
  | .pointer target => r.Covers target

variable {m : Model} {closed : List String} {r r' : Reach} {roots todo : List TargetType}
  {type : TargetType} {name : String}

/-- The types that a walk goes on with from a name are those of the fields of the type it enters. -/
theorem mem_heldBy (hm : (m.types.map (·.name)).Nodup) : type ∈ heldBy m closed name ↔
    name ∉ closed ∧ ∃ t ∈ m.types, t.name = name ∧ ∃ f ∈ wireFields t.fields, f.type = type := by
  have hfind : ∀ t, m.type? name = some t ↔ t ∈ m.types ∧ t.name = name := fun t =>
    Model.type?_eq_some_iff hm
  rw [heldBy]
  split
  · next hclosed => simp [hclosed]
  · next hclosed =>
    cases hname : m.type? name with
    | none =>
      simp only [Option.map_none, Option.getD_none, List.not_mem_nil, false_iff, not_and]
      rintro - ⟨t, ht, heq, -⟩
      rw [(hfind t).mpr ⟨ht, heq⟩] at hname
      cases hname
    | some t =>
      obtain ⟨ht, heq⟩ := (hfind t).mp hname
      simp only [Option.map_some, Option.getD_some, List.mem_map, hclosed, not_false_eq_true,
        true_and]
      constructor
      · exact fun hf => ⟨t, ht, heq, hf⟩
      · rintro ⟨u, hu, hname', hf⟩
        rw [(hfind u).mpr ⟨hu, hname'⟩, Option.some.injEq] at hname
        exact hname ▸ hf

/-! ## What is found is met -/

/-- Only what is met is found. -/
structure Sound (m : Model) (closed : List String) (roots : List TargetType) (r : Reach) :
    Prop where
  types : ∀ name ∈ r.types,
    TargetType.isBuiltin name = false ∧ m.Met (Enters closed) (· ∈ roots) (.plain name)
  vectors : ∀ type ∈ r.vectors,
    (∃ item, type = .vector item) ∧ m.Met (Enters closed) (· ∈ roots) type

/-- A walk adds nothing that is not met. -/
theorem Sound.walk (hm : (m.types.map (·.name)).Nodup)
    (htodo : ∀ type ∈ todo, m.Met (Enters closed) (· ∈ roots) type) (h : Sound m closed roots r) :
    Sound m closed roots (walk m closed r todo) := by
  fun_induction Reach.walk m closed r todo with
  | case1 r => exact h
  | case2 r item todo ih =>
    obtain ⟨hvector, htodo⟩ := List.forall_mem_cons.mp htodo
    refine ih (List.forall_mem_cons.mpr ⟨hvector.item, htodo⟩) ⟨h.types, fun type htype => ?_⟩
    simp only [addVector] at htype
    split at htype
    · exact h.vectors type htype
    · rcases List.mem_cons.mp htype with rfl | htype
      · exact ⟨⟨item, rfl⟩, hvector⟩
      · exact h.vectors type htype
  | case3 r target todo ih =>
    obtain ⟨hpointer, htodo⟩ := List.forall_mem_cons.mp htodo
    exact ih (List.forall_mem_cons.mpr ⟨hpointer.target, htodo⟩) h
  | case4 r name todo _ ih => exact ih (List.forall_mem_cons.mp htodo).2 h
  | case5 r name todo _ _ ih => exact ih (List.forall_mem_cons.mp htodo).2 h
  | case6 r name todo hbuiltin _ ih =>
    obtain ⟨hname, htodo⟩ := List.forall_mem_cons.mp htodo
    rw [Bool.not_eq_true] at hbuiltin
    refine ih (List.forall_mem_append.mpr ⟨fun type htype => ?_, htodo⟩) ⟨?_, h.vectors⟩
    · obtain ⟨hclosed, t, ht, rfl, f, hf, rfl⟩ := (mem_heldBy hm).mp htype
      exact hname.field ht ⟨rfl, hbuiltin, hclosed⟩ hf
    · exact List.forall_mem_cons.mpr ⟨⟨hbuiltin, hname⟩, h.types⟩

/-! ## What is met is found -/

theorem Covers.mono (htypes : r.types ⊆ r'.types) (hvectors : r.vectors ⊆ r'.vectors)
    (h : r.Covers type) : r'.Covers type := by
  induction type with
  | plain name => exact fun hbuiltin => htypes (h hbuiltin)
  | vector item ih => exact ⟨hvectors h.1, ih h.2⟩
  | pointer target ih => exact ih h

/-- A walk has found what it had found before and what it was given, and has entered every name
that it has found. -/
structure Complete (m : Model) (closed : List String) (r : Reach) (todo : List TargetType)
    (r' : Reach) : Prop where
  types : r.types ⊆ r'.types
  vectors : r.vectors ⊆ r'.vectors
  todo : ∀ type ∈ todo, r'.Covers type
  entered : ∀ name ∈ r'.types, name ∈ r.types ∨ ∀ type ∈ heldBy m closed name, r'.Covers type

/-- A walk covers what it is given and what that leads to. -/
theorem complete_walk (m : Model) (closed : List String) (r : Reach) (todo : List TargetType) :
    Complete m closed r todo (walk m closed r todo) := by
  fun_induction Reach.walk m closed r todo with
  | case1 r =>
    exact ⟨List.Subset.refl _, List.Subset.refl _, by simp, fun name hname => .inl hname⟩
  | case2 r item todo ih =>
    have hadd : .vector item ∈ (r.addVector (.vector item)).vectors ∧
        r.vectors ⊆ (r.addVector (.vector item)).vectors := by
      simp only [addVector]
      split
      · next hmem => exact ⟨hmem, List.Subset.refl _⟩
      · exact ⟨List.mem_cons_self, List.subset_cons_self _ _⟩
    obtain ⟨hitem, htodo⟩ := List.forall_mem_cons.mp ih.todo
    exact ⟨ih.types, List.Subset.trans hadd.2 ih.vectors,
      List.forall_mem_cons.mpr ⟨⟨ih.vectors hadd.1, hitem⟩, htodo⟩, ih.entered⟩
  | case3 r target todo ih =>
    obtain ⟨htarget, htodo⟩ := List.forall_mem_cons.mp ih.todo
    exact ⟨ih.types, ih.vectors, List.forall_mem_cons.mpr ⟨htarget, htodo⟩, ih.entered⟩
  | case4 r name todo hbuiltin ih =>
    refine ⟨ih.types, ih.vectors, List.forall_mem_cons.mpr ⟨fun hname => ?_, ih.todo⟩, ih.entered⟩
    rw [hbuiltin] at hname
    cases hname
  | case5 r name todo _ hold ih =>
    exact ⟨ih.types, ih.vectors,
      List.forall_mem_cons.mpr ⟨fun _ => ih.types hold, ih.todo⟩, ih.entered⟩
  | case6 r name todo _ _ ih =>
    have hname : name ∈ (r.addType name).types := List.mem_cons_self
    obtain ⟨hheld, htodo⟩ := List.forall_mem_append.mp ih.todo
    refine ⟨List.Subset.trans (List.subset_cons_self _ _) ih.types, ih.vectors,
      List.forall_mem_cons.mpr ⟨fun _ => ih.types hname, htodo⟩, fun other hother => ?_⟩
    rcases ih.entered other hother with hold | hentered
    · rcases List.mem_cons.mp hold with rfl | hold
      · exact .inr hheld
      · exact .inl hold
    · exact .inr hentered

/-- Everything that is met is covered. -/
theorem covers_reach (hm : (m.types.map (·.name)).Nodup)
    (h : m.Met (Enters closed) (· ∈ roots) type) : (m.reach closed roots).Covers type := by
  have hcomplete := complete_walk m closed ⟨[], []⟩ roots
  induction h with
  | root hroot => exact hcomplete.todo _ hroot
  | item _ ih => exact ih.2
  | target _ ih => exact ih
  | field _ ht henters hf ih =>
    obtain ⟨rfl, hbuiltin, hclosed⟩ := henters
    -- The name has been found, so its fields have been walked through.
    rcases hcomplete.entered _ (ih hbuiltin) with hnew | hentered
    · cases hnew
    · exact hentered _ ((mem_heldBy hm).mpr ⟨hclosed, _, ht, rfl, _, hf, rfl⟩)

end Reach

namespace Model

variable {m : Model} {closed : List String} {roots : List TargetType}

theorem sound_reach (hm : (m.types.map (·.name)).Nodup) :
    Reach.Sound m closed roots (m.reach closed roots) :=
  Reach.Sound.walk hm (fun _ htype => .root htype) ⟨by simp, by simp⟩

/-- The names that are found are those met, built-in types apart. -/
theorem mem_types_reach (hm : (m.types.map (·.name)).Nodup) {name : String}
    (hbuiltin : TargetType.isBuiltin name = false) : name ∈ (m.reach closed roots).types ↔
      m.Met (Reach.Enters closed) (· ∈ roots) (.plain name) :=
  ⟨fun hname => ((sound_reach hm).types name hname).2,
    fun hmet => Reach.covers_reach hm hmet hbuiltin⟩

/-- The vectors that are found are those met. -/
theorem mem_vectors_reach (hm : (m.types.map (·.name)).Nodup) {type : TargetType} :
    type ∈ (m.reach closed roots).vectors ↔
      (∃ item, type = .vector item) ∧ m.Met (Reach.Enters closed) (· ∈ roots) type := by
  refine ⟨(sound_reach hm).vectors type, ?_⟩
  rintro ⟨⟨item, rfl⟩, hmet⟩
  exact (Reach.covers_reach hm hmet).1

/-- What is met stays in a list that holds the roots and whatever the walk goes on to from it. -/
theorem Met.mem {starts : TargetType → Prop} {seen : List TargetType} {type : TargetType}
    (h : m.Met (Reach.Enters closed) starts type) (hroots : ∀ type, starts type → type ∈ seen)
    (hitems : ∀ item, .vector item ∈ seen → item ∈ seen)
    (htargets : ∀ target, .pointer target ∈ seen → target ∈ seen)
    (hfields : ∀ t ∈ m.types, .plain t.name ∈ seen → t.isBuiltin = false →
      ∀ f ∈ wireFields t.fields, f.type ∈ seen) : type ∈ seen := by
  induction h with
  | root hroot => exact hroots _ hroot
  | item _ ih => exact hitems _ ih
  | target _ ih => exact htargets _ ih
  | field _ ht henters hf ih => exact hfields _ ht (henters.1 ▸ ih) henters.2.1 _ hf

end Model

end TypeLang
