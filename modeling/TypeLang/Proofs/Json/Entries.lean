import Mathlib.Data.List.Induction
import Mathlib.Data.List.Nodup
import Mathlib.Data.String.Basic
import TypeLang.Json.Data

/-!
# Entries of records

A record keeps its entries in the order of their keys, one for each key: the last of those that
were entered under it. Entries that are in order already are kept as they are.
-/
namespace TypeLang.Json.Data

variable {α : Type} {key name : String} {value : α} {entry : String × α}
  {entries : List (String × α)}

/-- Entries in the order of their keys, with different keys. -/
def IsOrdered (entries : List (String × α)) : Prop :=
  entries.Pairwise fun first second => first.1 < second.1

/-! ## Entering -/

/-- Entering adds one entry and no other. -/
theorem mem_enter (h : entry ∈ enter key value entries) :
    entry = (key, value) ∨ entry ∈ entries := by
  induction entries with
  | nil => exact .inl (List.mem_singleton.mp h)
  | cons first entries ih =>
    obtain ⟨other, old⟩ := first
    simp only [enter] at h
    split at h
    · exact List.mem_cons.mp h
    · split at h
      · exact (List.mem_cons.mp h).imp_right (List.mem_cons_of_mem _)
      · rcases List.mem_cons.mp h with rfl | h
        · exact .inr List.mem_cons_self
        · exact (ih h).imp_right (List.mem_cons_of_mem _)

theorem lookup_cons_eq_if (key name : String) (value : α) (entries : List (String × α)) :
    ((key, value) :: entries).lookup name =
      if name = key then some value else entries.lookup name := by
  rw [List.lookup_cons]
  by_cases hname : name = key
  · rw [hname, beq_self_eq_true, if_pos rfl]
  · rw [beq_false_of_ne hname, if_neg hname]

/-- What is entered under a key is found under it, and nothing else changes. -/
theorem lookup_enter (key name : String) (value : α) (entries : List (String × α)) :
    (enter key value entries).lookup name =
      if name = key then some value else entries.lookup name := by
  induction entries with
  | nil => exact lookup_cons_eq_if key name value []
  | cons first entries ih =>
    obtain ⟨other, old⟩ := first
    simp only [enter]
    split
    · exact lookup_cons_eq_if key name value _
    · split
      · next heq =>
        simp only [lookup_cons_eq_if, heq]
        split <;> rfl
      · next hne =>
        simp only [lookup_cons_eq_if, ih]
        split
        · next hname => rw [if_neg (hname ▸ Ne.symm hne)]
        · rfl

/-- Entering keeps the order of the keys. -/
theorem IsOrdered.enter (h : IsOrdered entries) (key : String) (value : α) :
    IsOrdered (enter key value entries) := by
  induction entries with
  | nil => exact List.pairwise_singleton _ _
  | cons first entries ih =>
    obtain ⟨other, old⟩ := first
    obtain ⟨hfirst, hrest⟩ := List.pairwise_cons.mp h
    simp only [Data.enter]
    split
    · next hlt =>
      refine List.pairwise_cons.mpr ⟨List.forall_mem_cons.mpr ⟨hlt, fun e he => ?_⟩, h⟩
      exact lt_trans hlt (hfirst e he)
    · next hge =>
      split
      · next heq =>
        subst heq
        exact List.pairwise_cons.mpr ⟨hfirst, hrest⟩
      · next hne =>
        have hlt : other < key := lt_of_le_of_ne (not_lt.mp hge) (Ne.symm hne)
        refine List.pairwise_cons.mpr ⟨fun e he => ?_, ih hrest⟩
        rcases mem_enter he with rfl | he
        · exact hlt
        · exact hfirst e he

/-- Entries in order are entered at the end. -/
theorem enter_of_forall_lt (h : ∀ entry ∈ entries, entry.1 < key) (value : α) :
    enter key value entries = entries ++ [(key, value)] := by
  induction entries with
  | nil => rfl
  | cons first entries ih =>
    obtain ⟨hfirst, hentries⟩ := List.forall_mem_cons.mp h
    rw [enter, if_neg (not_lt_of_gt hfirst), if_neg (ne_of_gt hfirst), ih hentries]
    rfl

/-! ## Records -/

theorem ofEntries_concat (entries : List (String × α)) (entry : String × α) :
    ofEntries (entries ++ [entry]) = enter entry.1 entry.2 (ofEntries entries) := by
  rw [ofEntries, List.foldl_append]
  rfl

/-- No entry is made up. -/
theorem mem_ofEntries (h : entry ∈ ofEntries entries) : entry ∈ entries := by
  induction entries using List.reverseRecOn with
  | nil => exact h
  | append_singleton entries last ih =>
    rw [ofEntries_concat] at h
    rcases mem_enter h with rfl | h
    · simp
    · exact List.mem_append_left _ (ih h)

theorem isOrdered_ofEntries (entries : List (String × α)) : IsOrdered (ofEntries entries) := by
  induction entries using List.reverseRecOn with
  | nil => exact List.Pairwise.nil
  | append_singleton entries last ih =>
    rw [ofEntries_concat]
    exact ih.enter _ _

/-- Of several entries with one key the last counts. -/
theorem lookup_ofEntries (entries : List (String × α)) (name : String) :
    (ofEntries entries).lookup name = entries.reverse.lookup name := by
  induction entries using List.reverseRecOn with
  | nil => rfl
  | append_singleton entries last ih =>
    rw [ofEntries_concat, lookup_enter, ih, List.reverse_concat, lookup_cons_eq_if]

/-- Entries in order stay as they are. -/
theorem ofEntries_of_isOrdered (h : IsOrdered entries) : ofEntries entries = entries := by
  induction entries using List.reverseRecOn with
  | nil => rfl
  | append_singleton entries last ih =>
    obtain ⟨hentries, -, hlast⟩ := List.pairwise_append.mp h
    rw [ofEntries_concat, ih hentries, enter_of_forall_lt]
    exact fun entry hentry => hlast entry hentry last List.mem_cons_self

/-! ## Keys given once -/

theorem IsOrdered.countP_le_one (h : IsOrdered entries) (name : String) :
    entries.countP (fun entry => entry.1 == name) ≤ 1 := by
  have hkeys : (entries.map (·.1)).Nodup := List.pairwise_map.mpr (h.imp ne_of_lt)
  have hcount := List.nodup_iff_count_le_one.mp hkeys name
  rwa [List.count, List.countP_map] at hcount

/-- Of a key that is given once the first entry is the last. -/
theorem lookup_reverse (h : entries.countP (fun entry => entry.1 == name) ≤ 1) :
    entries.reverse.lookup name = entries.lookup name := by
  induction entries with
  | nil => rfl
  | cons first entries ih =>
    obtain ⟨key, value⟩ := first
    rw [List.reverse_cons, List.lookup_append, lookup_cons_eq_if, lookup_cons_eq_if]
    rw [List.countP_cons] at h
    by_cases hname : name = key
    · subst hname
      rw [beq_self_eq_true, if_pos rfl] at h
      -- The first entry is the only one with the key, so that no later one outdoes it.
      have hzero : entries.countP (fun entry => entry.1 == name) = 0 := by omega
      have hnone : entries.reverse.lookup name = none := by
        rw [List.lookup_eq_none_iff]
        intro entry hentry
        have hne := List.countP_eq_zero.mp hzero entry (List.mem_reverse.mp hentry)
        rw [beq_iff_eq] at hne
        exact bne_iff_ne.mpr (Ne.symm hne)
      rw [hnone, if_pos rfl, if_pos rfl]
      rfl
    · rw [if_neg hname, if_neg hname, ih (by omega)]
      simp

end TypeLang.Json.Data
