import TypeLang.Proofs.Text.Pieces
import TypeLang.Proofs.Text.Splitting
import TypeLang.Proofs.Text.Trimming

/-!
# Tokens

A token is a text that is not empty and has no blanks. The words of a text are tokens, and tokens
with one blank in front of each are the words of what they make.
-/
namespace TypeLang.Text

/-- A text that is one word. -/
structure IsToken (cs : List Char) : Prop where
  ne_nil : cs ≠ []
  solid : ∀ c ∈ cs, isBlank c = false

variable {cs token : List Char} {tokens : List (List Char)}

theorem not_of_mem_splitWhere {p : Char → Bool} {piece : List Char}
    (h : piece ∈ splitWhere p cs) : ∀ c ∈ piece, p c = false := by
  induction cs generalizing piece with
  | nil => simp_all
  | cons c cs ih =>
    obtain ⟨first, others, hsplit⟩ := List.exists_cons_of_ne_nil (splitWhere_ne_nil p cs)
    rw [splitWhere_cons, hsplit] at h
    rw [hsplit] at ih
    split at h
    · rcases List.mem_cons.mp h with rfl | h
      · simp
      · exact ih h
    · next hc =>
      rcases List.mem_cons.mp h with rfl | h
      · exact List.forall_mem_cons.mpr ⟨Bool.eq_false_iff.mpr hc, ih List.mem_cons_self⟩
      · exact ih (List.mem_cons_of_mem _ h)

theorem isToken_of_mem_words (h : token ∈ words cs) : IsToken token := by
  obtain ⟨hmem, hne⟩ := List.mem_filter.mp h
  exact ⟨by simpa using hne, not_of_mem_splitWhere hmem⟩

namespace IsToken

theorem head? (h : IsToken cs) : ∃ c, cs.head? = some c ∧ isBlank c = false := by
  obtain ⟨c, rest, rfl⟩ := List.exists_cons_of_ne_nil h.ne_nil
  exact ⟨c, rfl, h.solid c List.mem_cons_self⟩

theorem getLast? (h : IsToken cs) : ∃ c, cs.getLast? = some c ∧ isBlank c = false :=
  ⟨_, List.getLast?_eq_some_getLast h.ne_nil, h.solid _ (List.getLast_mem h.ne_nil)⟩

theorem trim_eq (h : IsToken cs) : trim cs = cs := by
  obtain ⟨c, hhead, hc⟩ := h.head?
  obtain ⟨d, hlast, hd⟩ := h.getLast?
  exact trim_of_head?_of_getLast? hhead hc hlast hd

theorem words_eq (h : IsToken cs) : words cs = [cs] := by
  rw [words, splitWhere_of_forall h.solid]
  simp [h.ne_nil]

end IsToken

/-! ## Tokens in a row -/

/-- Tokens with one space in front of each. -/
def spaced (tokens : List (List Char)) : List Char := tokens.flatMap (' ' :: ·)

@[simp] theorem spaced_nil : spaced [] = [] := rfl

theorem spaced_cons (token : List Char) (tokens : List (List Char)) :
    spaced (token :: tokens) = ' ' :: token ++ spaced tokens := rfl

theorem mem_spaced {c : Char} (h : c ∈ spaced tokens) : c = ' ' ∨ ∃ token ∈ tokens, c ∈ token := by
  obtain ⟨token, htoken, hc⟩ := List.mem_flatMap.mp h
  exact (List.mem_cons.mp hc).imp_right fun hc => ⟨token, htoken, hc⟩

@[simp] theorem words_nil : words [] = [] := by
  simp [words]

theorem words_cons_blank {c : Char} (hc : isBlank c) (cs : List Char) :
    words (c :: cs) = words cs := by
  rw [words, splitWhere_cons, if_pos hc]
  rfl

theorem words_append_cons_blank {c : Char} (hc : isBlank c) (xs ys : List Char) :
    words (xs ++ c :: ys) = words xs ++ words ys := by
  rw [words, splitWhere_append_cons hc, List.filter_append]
  rfl

/-- Tokens behind blanks are found again as words. -/
theorem words_spaced (h : ∀ token ∈ tokens, IsToken token) : words (spaced tokens) = tokens := by
  have hfront : ∀ front, words (front ++ spaced tokens) = words front ++ tokens := by
    induction tokens with
    | nil => simp
    | cons token tokens ih =>
      obtain ⟨htoken, htokens⟩ := List.forall_mem_cons.mp h
      intro front
      have hcons :
          front ++ spaced (token :: tokens) = (front ++ ' ' :: token) ++ spaced tokens := by
        rw [spaced_cons, List.append_assoc]
      rw [hcons, ih htokens, words_append_cons_blank (by decide), htoken.words_eq,
        List.append_assoc]
      rfl
  exact hfront []

/-- A row that starts with a token ends with a character that is not blank. -/
theorem getLast?_append_spaced (hcs : IsToken cs) (h : ∀ token ∈ tokens, IsToken token) :
    ∃ c, (cs ++ spaced tokens).getLast? = some c ∧ isBlank c = false := by
  rcases List.eq_nil_or_concat tokens with rfl | ⟨front, last, rfl⟩
  · simpa using hcs.getLast?
  · obtain ⟨c, hlast, hc⟩ := (h last (by simp)).getLast?
    refine ⟨c, ?_, hc⟩
    simp [spaced, hlast, List.getLast?_append, List.getLast?_cons]

end TypeLang.Text
