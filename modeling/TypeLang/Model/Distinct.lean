/-!
# First occurrences

Keeping the first element of each key, in order.
-/
namespace TypeLang

variable {α : Type} {β : Type} [DecidableEq β]

/-- The elements whose key is not in `seen` and not that of an earlier element. -/
def distinctFrom (key : α → β) (seen : List β) : List α → List α
  | [] => []
  | a :: as =>
    if key a ∈ seen then distinctFrom key seen as
    else a :: distinctFrom key (key a :: seen) as

/-- The first element of each key. -/
def distinctBy (key : α → β) (as : List α) : List α := distinctFrom key [] as

def distinct (as : List β) : List β := distinctBy id as

/-- Of the keys exactly those that are new are kept. -/
theorem mem_map_distinctFrom {key : α → β} {seen : List β} {as : List α} {b : β} :
    b ∈ (distinctFrom key seen as).map key ↔ b ∈ as.map key ∧ b ∉ seen := by
  induction as generalizing seen with
  | nil => simp [distinctFrom]
  | cons a as ih =>
    simp only [distinctFrom]
    split
    · next h =>
      rw [ih]
      grind
    · next h =>
      simp only [List.map_cons, List.mem_cons, ih]
      grind

/-- No key is lost. -/
theorem mem_map_distinctBy {key : α → β} {as : List α} {b : β} :
    b ∈ (distinctBy key as).map key ↔ b ∈ as.map key := by
  simp [distinctBy, mem_map_distinctFrom]

theorem nodup_map_distinctFrom {key : α → β} {seen : List β} {as : List α} :
    ((distinctFrom key seen as).map key).Nodup := by
  induction as generalizing seen with
  | nil => simp [distinctFrom]
  | cons a as ih =>
    simp only [distinctFrom]
    split
    · exact ih
    · rw [List.map_cons, List.nodup_cons]
      exact ⟨by simp [mem_map_distinctFrom], ih⟩

/-- No key occurs twice. -/
theorem nodup_map_distinctBy {key : α → β} {as : List α} :
    ((distinctBy key as).map key).Nodup :=
  nodup_map_distinctFrom

@[simp] theorem mem_distinct {as : List β} {b : β} : b ∈ distinct as ↔ b ∈ as := by
  simpa [distinct] using @mem_map_distinctBy β β _ id as b

theorem nodup_distinct {as : List β} : (distinct as).Nodup := by
  simpa [distinct] using @nodup_map_distinctBy β β _ id as

section Key

variable {key : α → β}

theorem distinctFrom_congr {seen seen' : List β} (h : ∀ b, b ∈ seen ↔ b ∈ seen') (as : List α) :
    distinctFrom key seen as = distinctFrom key seen' as := by
  induction as generalizing seen seen' with
  | nil => rfl
  | cons a as ih =>
    have hmore : ∀ b, b ∈ key a :: seen ↔ b ∈ key a :: seen' := fun b => by
      rw [List.mem_cons, List.mem_cons, h]
    simp only [distinctFrom, h, ih h, ih hmore]

/-- The later part of a list is looked at with what the earlier part has brought. -/
theorem distinctFrom_append (seen : List β) (as bs : List α) :
    distinctFrom key seen (as ++ bs) = distinctFrom key seen as ++
      distinctFrom key ((distinctFrom key seen as).map key ++ seen) bs := by
  induction as generalizing seen with
  | nil => rfl
  | cons a as ih =>
    rw [List.cons_append, distinctFrom, distinctFrom]
    split
    · exact ih seen
    · rw [ih, List.cons_append, List.map_cons]
      congr 2
      exact distinctFrom_congr (fun b => by simp [or_left_comm]) bs

/-- A search by something that the keys determine finds the same among the first of each key. -/
theorem find?_distinctFrom {seen : List β} {p : α → Bool}
    (hkey : ∀ a b, key a = key b → p a = p b) {as : List α}
    (hseen : ∀ a ∈ as, key a ∈ seen → p a = false) :
    (distinctFrom key seen as).find? p = as.find? p := by
  induction as generalizing seen with
  | nil => rfl
  | cons a as ih =>
    obtain ⟨ha, has⟩ := List.forall_mem_cons.mp hseen
    rw [distinctFrom]
    split
    · next hmem => rw [ih has, List.find?_cons_of_neg (by simp [ha hmem])]
    · cases hp : p a with
      | true => rw [List.find?_cons_of_pos hp, List.find?_cons_of_pos hp]
      | false =>
        rw [List.find?_cons_of_neg (by simp [hp]), List.find?_cons_of_neg (by simp [hp]), ih]
        intro b hb hmem
        rcases List.mem_cons.mp hmem with heq | hmem
        · rw [hkey b a heq, hp]
        · exact has b hb hmem

theorem find?_distinctBy {p : α → Bool} (hkey : ∀ a b, key a = key b → p a = p b) (as : List α) :
    (distinctBy key as).find? p = as.find? p :=
  find?_distinctFrom hkey (by simp)

end Key

/-- Elements without repetitions stand in the order of their first occurrences. -/
theorem pairwise_idxOf_distinctFrom {seen as : List β} :
    (distinctFrom id seen as).Pairwise fun a b => as.idxOf a < as.idxOf b := by
  have hfresh : ∀ (seen as : List β), ∀ a ∈ distinctFrom id seen as, a ∉ seen := by
    intro seen as a ha
    have hmem : a ∈ (distinctFrom id seen as).map id ↔ _ := mem_map_distinctFrom
    rw [List.map_id] at hmem
    exact (hmem.mp ha).2
  induction as generalizing seen with
  | nil => simp [distinctFrom]
  | cons a as ih =>
    -- Behind the first element every index is one more.
    have hshift : ∀ {seen : List β}, a ∈ seen → (distinctFrom id seen as).Pairwise
        fun b c => (a :: as).idxOf b < (a :: as).idxOf c := by
      intro seen ha
      refine ih.imp_of_mem fun {b c} hb hc hlt => ?_
      have hne : ∀ d ∈ distinctFrom id seen as, (a == d) = false := by
        refine fun d hd => beq_false_of_ne ?_
        rintro rfl
        exact hfresh seen as a hd ha
      simpa [List.idxOf_cons, hne b hb, hne c hc] using hlt
    simp only [distinctFrom, id_eq]
    split
    · next hseen => exact hshift hseen
    · refine List.pairwise_cons.mpr ⟨fun b hb => ?_, hshift List.mem_cons_self⟩
      have hne : (a == b) = false := by
        refine beq_false_of_ne ?_
        rintro rfl
        exact hfresh (a :: seen) as a hb List.mem_cons_self
      simp [List.idxOf_cons, hne]

theorem pairwise_idxOf_distinct (as : List β) :
    (distinct as).Pairwise fun a b => as.idxOf a < as.idxOf b := pairwise_idxOf_distinctFrom

end TypeLang
