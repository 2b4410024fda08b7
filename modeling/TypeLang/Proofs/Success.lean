/-!
# Success of computations

When a computation that may fail succeeds, each of its steps did. These laws take a successful
chain apart, one step at a time.
-/
namespace TypeLang

variable {ε δ α β : Type}

@[simp] theorem bind_eq_ok {x : Except ε α} {f : α → Except ε β} {b : β} :
    x >>= f = .ok b ↔ ∃ a, x = .ok a ∧ f a = .ok b := by
  cases x <;> simp [bind, Except.bind]

@[simp] theorem map_eq_ok {x : Except ε α} {f : α → β} {b : β} :
    x.map f = .ok b ↔ ∃ a, x = .ok a ∧ f a = b := by
  cases x <;> simp [Except.map]

@[simp] theorem mapError_eq_ok {x : Except ε α} {f : ε → δ} {a : α} :
    x.mapError f = .ok a ↔ x = .ok a := by
  cases x with
  | error e => exact ⟨nofun, nofun⟩
  | ok b =>
    constructor
    · intro h
      rw [Except.ok.inj h]
    · rintro ⟨⟩
      rfl

@[simp] theorem pure_eq_ok {a b : α} : (pure a : Except ε α) = .ok b ↔ a = b := by
  simp [pure, Except.pure]

@[simp] theorem throw_ne_ok {e : ε} {a : α} : ¬(throw e : Except ε α) = .ok a := by
  simp [throw, throwThe, MonadExceptOf.throw]

theorem exists_of_isOk {x : Except ε α} (h : x.isOk) : ∃ a, x = .ok a := by
  cases x with
  | error e => simp [Except.isOk, Except.toBool] at h
  | ok a => exact ⟨a, rfl⟩

theorem isOk_of_eq_ok {x : Except ε α} {a : α} (h : x = .ok a) : x.isOk := by
  rw [h]
  rfl

/-- Of a list read item by item, every result is the reading of an item. -/
theorem exists_of_mem_mapM {f : α → Except ε β} {as : List α} {bs : List β} {b : β}
    (h : as.mapM f = .ok bs) (hb : b ∈ bs) : ∃ a ∈ as, f a = .ok b := by
  induction as generalizing bs with
  | nil => simp_all
  | cons a as ih =>
    simp only [List.mapM_cons, bind_eq_ok, pure_eq_ok] at h
    obtain ⟨first, hfirst, rest, hrest, rfl⟩ := h
    rcases List.mem_cons.mp hb with rfl | hb
    · exact ⟨a, List.mem_cons_self, hfirst⟩
    · obtain ⟨c, hc, hread⟩ := ih hrest hb
      exact ⟨c, List.mem_cons_of_mem _ hc, hread⟩

/-- A list can be read item by item when every item can. -/
theorem exists_mapM {f : α → Except ε β} {as : List α} (h : ∀ a ∈ as, ∃ b, f a = .ok b) :
    ∃ bs, as.mapM f = .ok bs := by
  induction as with
  | nil => exact ⟨[], rfl⟩
  | cons a as ih =>
    obtain ⟨⟨b, hb⟩, hrest⟩ := List.forall_mem_cons.mp h
    obtain ⟨bs, hbs⟩ := ih hrest
    refine ⟨b :: bs, ?_⟩
    rw [List.mapM_cons, hb, hbs]
    rfl

/-- A list can be mapped exactly when each of its elements can. -/
theorem exists_mapM_iff {f : α → Except ε β} {as : List α} :
    (∃ bs, as.mapM f = .ok bs) ↔ ∀ a ∈ as, ∃ b, f a = .ok b := by
  refine ⟨?_, exists_mapM⟩
  rintro ⟨bs, hbs⟩
  induction as generalizing bs with
  | nil => simp
  | cons a as ih =>
    simp only [List.mapM_cons, bind_eq_ok, pure_eq_ok] at hbs
    obtain ⟨b, hb, rest, hrest, -⟩ := hbs
    exact List.forall_mem_cons.mpr ⟨⟨b, hb⟩, ih rest hrest⟩

/-- The first item that is refused is what the list is refused for. -/
theorem mapM_of_error {f : α → Except ε β} {front back : List α} {a : α} {e : ε}
    (hfront : ∀ b ∈ front, ∃ c, f b = .ok c) (ha : f a = .error e) :
    (front ++ a :: back).mapM f = .error e := by
  obtain ⟨cs, hcs⟩ := exists_mapM hfront
  rw [List.mapM_append, hcs, List.mapM_cons, ha]
  rfl

/-- Readings that succeed alike on every item of a list succeed alike on the list. -/
theorem mapM_eq_ok_congr {f : α → Except ε β} {g : α → Except δ β} {as : List α}
    (h : ∀ a ∈ as, ∀ b, f a = .ok b ↔ g a = .ok b) (bs : List β) :
    as.mapM f = .ok bs ↔ as.mapM g = .ok bs := by
  induction as generalizing bs with
  | nil => simp
  | cons a as ih =>
    obtain ⟨ha, has⟩ := List.forall_mem_cons.mp h
    simp only [List.mapM_cons, bind_eq_ok, pure_eq_ok, ha, ih has]

/-- What every result tells of its item, the results tell of the list. -/
theorem map_eq_of_mapM {γ : Type} {f : α → Except ε β} {g : β → γ} {k : α → γ} {as : List α}
    {bs : List β} (h : as.mapM f = .ok bs) (hk : ∀ a ∈ as, ∀ b, f a = .ok b → g b = k a) :
    bs.map g = as.map k := by
  induction as generalizing bs with
  | nil => simp_all
  | cons a as ih =>
    obtain ⟨ha, has⟩ := List.forall_mem_cons.mp hk
    simp only [List.mapM_cons, bind_eq_ok, pure_eq_ok] at h
    obtain ⟨b, hb, rest, hrest, rfl⟩ := h
    rw [List.map_cons, List.map_cons, ha b hb, ih hrest has]

/-- A search finds the one hit there is. -/
theorem find?_eq_some_of_forall {p : α → Bool} {as : List α} {a : α} (ha : a ∈ as) (hp : p a)
    (hall : ∀ b ∈ as, p b → b = a) : as.find? p = some a := by
  cases hsearch : as.find? p with
  | none => exact absurd hp (List.find?_eq_none.mp hsearch a ha)
  | some b => rw [hall b (List.mem_of_find?_eq_some hsearch) (List.find?_some hsearch)]

/-- A search by a key that tells the items apart finds the item of the key. -/
theorem find?_eq_some_of_nodup [BEq β] [LawfulBEq β] {key : α → β} {as : List α} {a : α}
    (hkeys : (as.map key).Nodup) (ha : a ∈ as) : as.find? (key · == key a) = some a := by
  induction as with
  | nil => cases ha
  | cons b as ih =>
    rw [List.map_cons, List.nodup_cons] at hkeys
    rcases List.mem_cons.mp ha with rfl | ha
    · simp
    · have hne : key b ≠ key a := fun h => hkeys.1 (h ▸ List.mem_map_of_mem ha)
      rw [List.find?_cons_of_neg (by simpa using hne), ih hkeys.2 ha]

theorem find?_eq_some_iff_of_nodup [BEq β] [LawfulBEq β] {key : α → β} {as : List α} {a : α}
    {b : β} (hkeys : (as.map key).Nodup) : as.find? (key · == b) = some a ↔ a ∈ as ∧ key a = b := by
  constructor
  · exact fun h => ⟨List.mem_of_find?_eq_some h, by simpa using List.find?_some h⟩
  · rintro ⟨ha, rfl⟩
    exact find?_eq_some_of_nodup hkeys ha

/-- Among elements with different keys at most one has a given key. -/
theorem filterMap_eq_find? {γ : Type} [DecidableEq β] {key : α → β} {as : List α}
    (h : (as.map key).Nodup) (b : β) (f : α → γ) :
    as.filterMap (fun a => if key a = b then some (f a) else none) =
      ((as.find? (key · == b)).map f).toList := by
  induction as with
  | nil => rfl
  | cons a as ih =>
    rw [List.map_cons, List.nodup_cons] at h
    by_cases hb : key a = b
    · have hrest : ∀ c ∈ as, key c ≠ b := fun c hc heq =>
        h.1 (List.mem_map.mpr ⟨c, hc, heq.trans hb.symm⟩)
      have hnone : as.find? (key · == b) = none := by simpa using hrest
      simp [hb, ih h.2, hnone]
    · simp [hb, ih h.2]

/-- A search finds what every hit gives. -/
theorem findSome?_eq_of_forall {f : α → Option β} {as : List α} {found : Option β}
    (hmem : ∃ a ∈ as, f a = found) (hall : ∀ a ∈ as, f a = none ∨ f a = found) :
    as.findSome? f = found := by
  cases hsearch : as.findSome? f with
  | none =>
    obtain ⟨a, ha, rfl⟩ := hmem
    exact (List.findSome?_eq_none_iff.mp hsearch a ha).symm
  | some b =>
    obtain ⟨a, ha, hb⟩ := List.exists_of_findSome?_eq_some hsearch
    rcases hall a ha with hnone | hfound
    · rw [hnone] at hb
      cases hb
    · rw [← hb, hfound]

end TypeLang
