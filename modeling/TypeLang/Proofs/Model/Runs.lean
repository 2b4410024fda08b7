import Mathlib.Data.List.SplitBy
import TypeLang.Model.Distinct

/-!
# First occurrences and runs

The elements of a list that are the first with their key, and the cut of a list into its maximal
runs of one key. Both are told by what they are, and both follow a list that grows at its end: the
new element is a first one or not, and goes on with the last run or starts one.
-/
namespace TypeLang

/-! ## First occurrences by position -/

section First

variable {α : Type} {β : Type} [DecidableEq β] {key : α → β} {seen : List β}

/-- The elements at the positions with no earlier element of the same key. -/
def firsts (key : α → β) (as : List α) : List α :=
  (as.zipIdx.filter fun entry => key entry.1 ∉ (as.take entry.2).map key).map (·.1)

omit [DecidableEq β] in
theorem mem_map_take_append {as bs : List α} {entry : α × Nat} {b : β}
    (h : entry ∈ as.zipIdx) :
    b ∈ ((as ++ bs).take entry.2).map key ↔ b ∈ (as.take entry.2).map key := by
  have hlt := List.snd_lt_of_mem_zipIdx h
  rw [List.take_append_of_le_length (by omega)]

/-- One more element is a first one when no element before it has its key. -/
theorem firsts_concat (as : List α) (a : α) :
    firsts key (as ++ [a]) = firsts key as ++ if key a ∈ as.map key then [] else [a] := by
  have hfront : as.zipIdx.filter
      (fun entry => key entry.1 ∉ ((as ++ [a]).take entry.2).map key) =
        as.zipIdx.filter fun entry => key entry.1 ∉ (as.take entry.2).map key := by
    refine List.filter_congr fun entry hentry => ?_
    rw [decide_eq_decide, mem_map_take_append hentry]
  rw [firsts, List.zipIdx_append, List.filter_append, List.map_append, hfront, firsts]
  simp only [List.zipIdx_cons, List.zipIdx_nil, Nat.zero_add, List.filter_cons, List.filter_nil,
    List.take_left]
  split <;> simp_all

/-- Scanning a list for keys that were not seen yet finds the first elements of each key. -/
theorem distinctBy_eq_firsts (key : α → β) (as : List α) : distinctBy key as = firsts key as := by
  induction as using List.reverseRecOn with
  | nil => rfl
  | append_singleton as a ih =>
    rw [distinctBy, distinctFrom_append, firsts_concat, ← ih, ← distinctBy, List.append_nil]
    simp only [distinctFrom, mem_map_distinctBy]

theorem mem_firsts_id {b : β} {bs : List β} : b ∈ firsts id bs ↔ b ∈ bs := by
  rw [← distinctBy_eq_firsts]
  exact mem_distinct

theorem nodup_firsts_id (bs : List β) : (firsts id bs).Nodup := by
  rw [← distinctBy_eq_firsts]
  exact nodup_distinct

end First

/-! ## Runs of one key -/

section Runs

variable {α : Type} {β : Type}

/-- A list cut into its maximal runs of one key. -/
structure IsRuns (key : α → β) (as : List α) (runs : List (List α)) : Prop where
  flatten_eq : runs.flatten = as
  ne_nil : ∀ run ∈ runs, run ≠ []
  same : ∀ run ∈ runs, ∀ a ∈ run, ∀ b ∈ run, key a = key b
  maximal : runs.IsChain fun run next => ∀ a ∈ run, ∀ b ∈ next, key a ≠ key b

variable {key : α → β} {as : List α} {runs : List (List α)}

/-- The last element of a list has the key of the last run. -/
theorem IsRuns.map_getLast? {run : List α} (h : IsRuns key as (runs ++ [run])) {b : α}
    (hb : b ∈ run) : as.getLast?.map key = some (key b) := by
  have hrun : run ∈ runs ++ [run] := List.mem_append_right runs (List.mem_singleton_self run)
  have hne := h.ne_nil run hrun
  rw [← h.flatten_eq, List.flatten_append, List.flatten_singleton,
    List.getLast?_append_of_ne_nil _ hne, List.getLast?_eq_some_getLast hne, Option.map_some,
    h.same run hrun _ (List.getLast_mem hne) b hb]

/-- An element with the key of the last one goes on with its run. -/
theorem IsRuns.extend {run : List α} {a : α} (h : IsRuns key as (runs ++ [run]))
    (hlast : as.getLast?.map key = some (key a)) :
    IsRuns key (as ++ [a]) (runs ++ [run ++ [a]]) := by
  have hkey : ∀ b ∈ run, key b = key a := fun b hb =>
    Option.some.inj ((h.map_getLast? hb).symm.trans hlast)
  have hrun : run ∈ runs ++ [run] := List.mem_append_right runs (List.mem_singleton_self run)
  obtain ⟨hinit, -, hboundary⟩ := List.isChain_append.mp h.maximal
  refine ⟨?_, ?_, ?_, List.isChain_append.mpr ⟨hinit, List.isChain_singleton _, ?_⟩⟩
  · rw [← h.flatten_eq, List.flatten_append, List.flatten_append, List.flatten_singleton,
      List.flatten_singleton, List.append_assoc]
  · intro other hother
    rcases List.mem_append.mp hother with hother | hother
    · exact h.ne_nil other (List.mem_append_left _ hother)
    · rw [List.mem_singleton.mp hother]
      simp
  · intro other hother b hb c hc
    rcases List.mem_append.mp hother with hother | hother
    · exact h.same other (List.mem_append_left _ hother) b hb c hc
    · have hextended : ∀ b ∈ run ++ [a], key b = key a := by
        intro b hb
        rcases List.mem_append.mp hb with hb | hb
        · exact hkey b hb
        · rw [List.mem_singleton.mp hb]
      rw [List.mem_singleton.mp hother] at hb hc
      rw [hextended b hb, hextended c hc]
  · rintro before hbefore _ ⟨⟩ b hb c hc
    have hdiffer := hboundary before hbefore run rfl b hb
    rcases List.mem_append.mp hc with hc | hc
    · exact hdiffer c hc
    · obtain ⟨d, hd⟩ := List.exists_mem_of_ne_nil run (h.ne_nil run hrun)
      rw [List.mem_singleton.mp hc, ← hkey d hd]
      exact hdiffer d hd

/-- An element with another key than the last one starts a run. -/
theorem IsRuns.start {a : α} (h : IsRuns key as runs)
    (hlast : as.getLast?.map key ≠ some (key a)) : IsRuns key (as ++ [a]) (runs ++ [[a]]) := by
  refine ⟨?_, ?_, ?_, List.isChain_append.mpr ⟨h.maximal, List.isChain_singleton _, ?_⟩⟩
  · rw [List.flatten_append, h.flatten_eq, List.flatten_singleton]
  · intro run hrun
    rcases List.mem_append.mp hrun with hrun | hrun
    · exact h.ne_nil run hrun
    · rw [List.mem_singleton.mp hrun]
      simp
  · intro run hrun b hb c hc
    rcases List.mem_append.mp hrun with hrun | hrun
    · exact h.same run hrun b hb c hc
    · rw [List.mem_singleton.mp hrun] at hb hc
      rw [List.mem_singleton.mp hb, List.mem_singleton.mp hc]
  · rintro before hbefore _ ⟨⟩ b hb c hc
    obtain ⟨init, rfl⟩ := List.getLast?_eq_some_iff.mp hbefore
    rw [List.mem_singleton.mp hc]
    intro heq
    exact hlast (by rw [h.map_getLast? hb, heq])

/-- There is one way only to cut a list into its maximal runs. -/
theorem IsRuns.eq_splitBy [BEq β] [LawfulBEq β] (h : IsRuns key as runs) :
    runs = as.splitBy fun a b => key a == key b := by
  symm
  refine List.splitBy_eq_iff.mpr ⟨h.flatten_eq.symm, fun hnil => h.ne_nil [] hnil rfl, ?_, ?_⟩
  · intro run hrun
    refine (List.pairwise_of_forall_mem_list fun a ha b hb => ?_).isChain
    exact beq_iff_eq.mpr (h.same run hrun a ha b hb)
  · refine List.IsChain.imp_of_mem_imp ?_ h.maximal
    intro run next hrun hnext hdiffer
    refine ⟨h.ne_nil run hrun, h.ne_nil next hnext, beq_eq_false_iff_ne.mpr ?_⟩
    exact hdiffer _ (List.getLast_mem _) _ (List.head_mem _)

end Runs

end TypeLang
