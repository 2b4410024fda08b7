import TypeLang.Proofs.Crc32
import TypeLang.Proofs.Schema.Statement
import TypeLang.Proofs.Text.Respacing

/-!
# Derived ids

The id of an unnumbered definition is the checksum of its words, with brackets out of the way. How
a definition is spaced matters to no id, written or derived, and to no error: of all that is read,
only names of result types can hold blanks.
-/
namespace TypeLang

open Text

variable {cs : List Char}

/-! ## Types -/

theorem QualifiedName.isSome_read?_collapse (cs : List Char) :
    (read? (collapse cs)).isSome = (read? cs).isSome := by
  have hempty : (splitWhere (· == '.') (collapse cs)).any List.isEmpty =
      (splitWhere (· == '.') cs).any List.isEmpty := by
    rw [splitWhere_collapse (by decide), List.any_map]
    congr 1
    funext piece
    rw [Function.comp_apply, Bool.eq_iff_iff, List.isEmpty_iff, List.isEmpty_iff,
      collapse_eq_nil_iff]
  simp only [read?, hempty]
  split <;> rfl

namespace TypeExpr

/-- Which texts are read as a type. -/
theorem exists_read_iff : (∃ type, read cs = .ok type) ↔ cs.head? ≠ some '!' ∧
    ((cut? '<' cs = none ∧ (QualifiedName.read? cs).isSome) ∨
      ∃ head rest inner, cut? '<' cs = some (head, rest) ∧ dropLast? '>' rest = some inner ∧
        (∃ argument, read inner = .ok argument) ∧ (QualifiedName.read? head).isSome) := by
  rw [read]
  split
  · next hmark => simp [hmark]
  · next hmark =>
    rw [ne_eq, and_iff_right hmark]
    split
    · next hcut =>
      simp [hcut, readName_eq_ok, Option.isSome_iff_exists]
    · next head rest hcut =>
      split
      · next hlast =>
        simp [hcut, hlast]
      · next inner hlast =>
        simp only [hcut, bind_eq_ok, pure_eq_ok, readName_eq_ok, Option.isSome_iff_exists]
        constructor
        · rintro ⟨type, argument, hargument, name, hname, -⟩
          exact .inr ⟨head, rest, inner, rfl, hlast, ⟨argument, hargument⟩, name, hname⟩
        · rintro (⟨hnone, -⟩ | ⟨_, _, _, hsome, hinner, ⟨argument, hargument⟩, name, hname⟩)
          · cases hnone
          · cases hsome
            cases hlast.symm.trans hinner
            exact ⟨_, argument, hargument, name, hname, rfl⟩

/-- Collapsing blanks neither makes a type nor breaks one. -/
theorem exists_read_collapse_iff :
    (∃ type, read (collapse cs) = .ok type) ↔ ∃ type, read cs = .ok type := by
  induction h : cs.length using Nat.strongRecOn generalizing cs with
  | ind n ih =>
    subst h
    have hhead : (collapse cs).head? = some '!' ↔ cs.head? = some '!' := by
      rw [head?_collapse, map_space_eq_some_iff (by decide)]
    rw [exists_read_iff, exists_read_iff, ne_eq, hhead, cut?_collapse (by decide),
      QualifiedName.isSome_read?_collapse]
    cases hcut : cut? '<' cs with
    | none => simp
    | some cut =>
      obtain ⟨head, rest⟩ := cut
      cases hlast : dropLast? '>' rest with
      | none => simp [dropLast?_collapse (show isBlank '>' = false by decide), hlast]
      | some inner =>
        have hshort : inner.length < cs.length := by
          have hrest := length_cutWhere? hcut
          have hinner := length_dropLast? hlast
          omega
        have hinner := ih _ hshort rfl
        simp [dropLast?_collapse (show isBlank '>' = false by decide), hlast, hinner,
          QualifiedName.isSome_read?_collapse]

end TypeExpr

namespace Definition

variable {cs' left left' right right' : List Char}

/-! ## The sides of a definition -/

/-- The head of a text is its first word, and the rest has the other words. -/
theorem cutHead_of_startsBlank (h : startsBlank cs = false) :
    (cutHead cs).1 = (words cs).headD [] ∧ words (cutHead cs).2 = (words cs).tail := by
  induction cs using word_induction with
  | nil => simp [cutHead, cutWhere?]
  | blank c cs hc => exact absurd hc (by simpa [startsBlank] using h)
  | last word hword =>
    rw [cutHead, cutWhere?_eq_none_iff.mpr hword.solid, hword.words_eq, Option.getD_none]
    exact ⟨rfl, words_nil⟩
  | word word rest hword hrest =>
    cases rest with
    | nil => cases hrest
    | cons d rest =>
      have hd : isBlank d := hrest
      rw [hword.words_append hrest, words_cons_blank hd, cutHead,
        cutWhere?_append hword.solid hd, Option.getD_some]
      exact ⟨rfl, rfl⟩

/-- A mark that is not blank occurs in a text just when it occurs in a word of it. -/
theorem has_congr (h : words cs = words cs') (mark : Char) (hmark : isBlank mark = false) :
    has mark (trim cs) = has mark (trim cs') := by
  have hcollapse : collapse (trim cs) = collapse (trim cs') := by
    rw [collapse_trim, collapse_trim, h]
  rw [Bool.eq_iff_iff, has, has, List.contains_iff_mem, List.contains_iff_mem,
    ← mem_collapse_iff hmark, hcollapse, mem_collapse_iff hmark]

/-- Whether a result type is read does not depend on its spacing, nor does the error. -/
theorem map_readResult_congr (h : words right = words right') (template : Bool) :
    (readResult template (trim right)).map (fun _ => ()) =
      (readResult template (trim right')).map fun _ => () := by
  have hcollapse : collapse (trim right) = collapse (trim right') := by
    rw [collapse_trim, collapse_trim, h]
  cases template with
  | true => simp only [readResult, if_true, words_trim, h]
  | false =>
    have hempty : (trim right).isEmpty = (trim right').isEmpty := by
      rw [Bool.eq_iff_iff, List.isEmpty_iff, List.isEmpty_iff, ← collapse_eq_nil_iff, hcollapse,
        collapse_eq_nil_iff]
    have hread : (∃ type, TypeExpr.read (trim right) = .ok type) ↔
        ∃ type, TypeExpr.read (trim right') = .ok type := by
      rw [← TypeExpr.exists_read_collapse_iff, hcollapse, TypeExpr.exists_read_collapse_iff]
    simp only [readResult, Bool.false_eq_true, if_false, hempty]
    split
    · rfl
    · cases hleft : TypeExpr.read (trim right) with
      | error e =>
        cases hright : TypeExpr.read (trim right') with
        | error e' => rfl
        | ok type => simp [hleft, hright] at hread
      | ok type =>
        cases hright : TypeExpr.read (trim right') with
        | error e => simp [hleft, hright] at hread
        | ok type' => rfl

/-! ## Words of ids -/

theorem idWords_append_cons_blank {c : Char} (hc : isBlank c) (xs ys : List Char) :
    idWords (xs ++ c :: ys) = idWords xs ++ idWords ys := by
  have hne : ∀ mark, isBlank mark = false → c ≠ mark := by
    rintro mark hmark rfl
    rw [hc] at hmark
    cases hmark
  have hkept : (c != '>') = true := bne_iff_ne.mpr (hne '>' (by decide))
  rw [idWords, List.filter_append, List.filter_cons_of_pos (p := (· != '>')) hkept,
    List.map_append, List.map_cons, if_neg, words_append_cons_blank hc]
  · rfl
  · simp only [not_or]
    exact ⟨hne _ (by decide), hne _ (by decide), hne _ (by decide)⟩

/-- Brackets part words further, or vanish in them. -/
theorem idWords_eq_flatMap (cs : List Char) : idWords cs = (words cs).flatMap idWords := by
  have hnil : idWords [] = [] := words_nil
  induction cs using word_induction with
  | nil => rw [hnil, words_nil, List.flatMap_nil]
  | blank c cs hc ih =>
    have hcons : idWords (c :: cs) = idWords [] ++ idWords cs :=
      idWords_append_cons_blank hc [] cs
    rw [hcons, hnil, List.nil_append, words_cons_blank hc, ih]
  | last word hword => rw [hword.words_eq, List.flatMap_singleton]
  | word word rest hword hrest ih =>
    cases rest with
    | nil => cases hrest
    | cons d rest =>
      have hd : isBlank d := hrest
      have hcons : idWords (d :: rest) = idWords [] ++ idWords rest :=
        idWords_append_cons_blank hd [] rest
      rw [hword.words_append hrest, List.flatMap_cons, ← ih, hcons, hnil, List.nil_append,
        idWords_append_cons_blank hd]

theorem derivedId_congr (h : idWords cs = idWords cs') : derivedId cs = derivedId cs' := by
  rw [derivedId, h, derivedId]

/-- The words of what stands on two sides of an equality sign. -/
theorem idWords_sides (left right : List Char) :
    idWords (left ++ ' ' :: '=' :: ' ' :: right) =
      idWords left ++ ['='] :: idWords right := by
  have hequal : idWords ('=' :: ' ' :: right) = idWords ['='] ++ idWords right :=
    idWords_append_cons_blank (by decide) ['='] right
  have hsign : idWords ['='] = [['=']] := by decide
  rw [idWords_append_cons_blank (by decide), hequal, hsign]
  rfl

/-! ## Definitions -/

/-- Statements whose sides have the same words have the same id, or fail alike. -/
theorem map_id_read_congr (hcut : cut? '=' (body cs) = some (left, right))
    (hcut' : cut? '=' (body cs') = some (left', right')) (hleft : words left = words left')
    (hright : words right = words right') :
    (read cs).map (·.id) = (read cs').map (·.id) := by
  have hopen : ∀ {cs left right : List Char}, cut? '=' (body cs) = some (left, right) →
      (body cs).isEmpty = false := by
    intro cs left right hcut
    rw [append_of_cut? hcut]
    cases left <;> rfl
  obtain ⟨hhead, hrest⟩ := cutHead_of_startsBlank (startsBlank_trim left)
  obtain ⟨hhead', hrest'⟩ := cutHead_of_startsBlank (startsBlank_trim left')
  rw [words_trim] at hhead hrest hhead' hrest'
  have hheads : (cutHead (trim left)).1 = (cutHead (trim left')).1 := by rw [hhead, hhead', hleft]
  have hrests : words (cutHead (trim left)).2 = words (cutHead (trim left')).2 := by
    rw [hrest, hrest', hleft]
  have htemplate := has_congr hleft '\x7b' (by decide)
  have hresult := map_readResult_congr hright (has '\x7b' (trim left'))
  have hid : ∀ name, derivedId (name ++ ' ' :: (cutHead (trim left)).2 ++ ' ' :: '=' :: ' ' ::
      trim right) = derivedId (name ++ ' ' :: (cutHead (trim left')).2 ++ ' ' :: '=' :: ' ' ::
      trim right') := by
    intro name
    apply derivedId_congr
    rw [idWords_sides, idWords_sides, idWords_append_cons_blank (by decide),
      idWords_append_cons_blank (by decide), idWords_eq_flatMap (cutHead _).2, hrests,
      ← idWords_eq_flatMap, idWords_eq_flatMap (trim right), words_trim, hright,
      ← words_trim right', ← idWords_eq_flatMap]
  simp only [read, hopen hcut, hopen hcut', hcut, hcut', hheads, hrests, htemplate, hid,
    Bool.false_eq_true, if_false]
  cases hread : readResult (has '\x7b' (trim left')) (trim right) with
  | error e =>
    cases hread' : readResult (has '\x7b' (trim left')) (trim right') with
    | error e' =>
      rw [hread, hread'] at hresult
      cases hresult
      rfl
    | ok result =>
      rw [hread, hread'] at hresult
      cases hresult
  | ok result =>
    cases hread' : readResult (has '\x7b' (trim left')) (trim right') with
    | error e =>
      rw [hread, hread'] at hresult
      cases hresult
    | ok result' =>
      -- What is read besides the result type is the same on both sides.
      cases QualifiedName.read? (cutId (cutHead (trim left')).1).1 with
      | none => rfl
      | some name =>
        cases has '\x7b' (trim left') <;>
          cases readParameters [] (words (cutHead (trim left')).2) <;>
          cases (cutId (cutHead (trim left')).1).2 with
          | none => rfl
          | some id =>
            dsimp only
            cases readId id <;> rfl

theorem words_body (cs : List Char) :
    words (body cs) = words (dropEndWhile (· == ';') (joinWith [' '] (words cs))) := by
  rw [body, words_trim, ← words_collapse, ← dropEndWhile_collapse (by decide), collapse_trim]

theorem words_body_congr (h : words cs = words cs') : words (body cs) = words (body cs') := by
  rw [words_body, h, words_body]

theorem collapse_body (cs : List Char) : collapse (body cs) = joinWith [' '] (words (body cs)) := by
  rw [body, collapse_trim, words_trim]

/-- Respacing a definition changes neither its id nor its error. -/
theorem map_id_read_respaced (h : words (body cs) = words (body cs')) :
    (read cs).map (·.id) = (read cs').map (·.id) := by
  have hbody : collapse (body cs) = collapse (body cs') := by
    rw [collapse_body, h, collapse_body]
  have hcuts := congrArg (cut? '=') hbody
  rw [cut?_collapse (by decide), cut?_collapse (by decide)] at hcuts
  cases hcut : cut? '=' (body cs) with
  | none =>
    rw [hcut, Option.map_none, eq_comm, Option.map_eq_none_iff] at hcuts
    have hempty : (body cs).isEmpty = (body cs').isEmpty := by
      rw [Bool.eq_iff_iff, List.isEmpty_iff, List.isEmpty_iff, ← collapse_eq_nil_iff, hbody,
        collapse_eq_nil_iff]
    simp only [read, hcut, hcuts, hempty]
  | some sides =>
    obtain ⟨left, right⟩ := sides
    rw [hcut, Option.map_some, eq_comm, Option.map_eq_some_iff] at hcuts
    obtain ⟨⟨left', right'⟩, hcut', hsides⟩ := hcuts
    obtain ⟨hleft, hright⟩ := Prod.mk.inj hsides
    refine map_id_read_congr hcut hcut' ?_ ?_
    · rw [← words_collapse, ← hleft, words_collapse]
    · rw [← words_collapse, ← hright, words_collapse]

/-! ## Unnumbered definitions -/

/-- Cutting the head off keeps the words. -/
theorem idWords_cutHead (left : List Char) :
    idWords (cutHead (trim left)).1 ++ idWords (cutHead (trim left)).2 = idWords left := by
  obtain ⟨hhead, hrest⟩ := cutHead_of_startsBlank (startsBlank_trim left)
  rw [words_trim] at hhead hrest
  rw [hhead, idWords_eq_flatMap (cutHead (trim left)).2, hrest, idWords_eq_flatMap left]
  cases words left with
  | nil => exact words_nil
  | cons word others => rfl

/-- The id of a definition without a number sign in its first word. -/
theorem id_of_read_unnumbered {d : Definition} (h : read cs = .ok d)
    (hcut : cut? '=' (body cs) = some (left, right)) (hunnumbered : '#' ∉ (words left).headD []) :
    d.id = derivedId (left ++ ' ' :: '=' :: ' ' :: right) := by
  have hhead := (cutHead_of_startsBlank (startsBlank_trim left)).1
  rw [words_trim] at hhead
  have hnone : cutId (cutHead (trim left)).1 = ((cutHead (trim left)).1, none) := by
    rw [cutId, cut?_eq_none_iff.mpr (hhead ▸ hunnumbered)]
  have hid : derivedId ((cutHead (trim left)).1 ++ ' ' :: (cutHead (trim left)).2 ++
      ' ' :: '=' :: ' ' :: trim right) = derivedId (left ++ ' ' :: '=' :: ' ' :: right) := by
    apply derivedId_congr
    rw [idWords_sides, idWords_append_cons_blank (by decide), idWords_cutHead, idWords_sides,
      idWords_eq_flatMap (trim right), words_trim, ← idWords_eq_flatMap]
  simp only [read, hcut, hnone, hid] at h
  split at h
  · simp at h
  · simp only [bind_eq_ok] at h
    obtain ⟨result, -, h⟩ := h
    split at h
    · simp only [pure_bind] at h
      split at h
      · cases h
        rfl
      · simp only [bind_eq_ok, pure_eq_ok] at h
        obtain ⟨parameters, -, rfl⟩ := h
        rfl
    · simp at h

/-- The text with blanks for braces and opening brackets, and with nothing for closing brackets. -/
def unbracketed (cs : List Char) : List Char :=
  cs.flatMap fun c =>
    if c = '>' then [] else if c = '\x7b' ∨ c = '\x7d' ∨ c = '<' then [' '] else [c]

theorem idWords_eq_words_unbracketed (cs : List Char) : idWords cs = words (unbracketed cs) := by
  rw [idWords]
  congr 1
  induction cs with
  | nil => rfl
  | cons c cs ih =>
    rw [unbracketed, List.flatMap_cons, ← unbracketed, ← ih]
    by_cases hc : c = '>'
    · simp [hc]
    · have hkept : (c != '>') = true := bne_iff_ne.mpr hc
      rw [List.filter_cons_of_pos (p := (· != '>')) hkept, List.map_cons, if_neg hc]
      split <;> rfl

/-- The checksum of words with one space between them. -/
def wordsChecksum (tokens : List (List Char)) : UInt32 :=
  Crc32.checksum (Utf8.encode (String.ofList (joinWith [' '] tokens)))

theorem derivedId_eq_wordsChecksum (cs : List Char) :
    derivedId cs = wordsChecksum (words (unbracketed cs)) := by
  rw [← idWords_eq_words_unbracketed]
  rfl

/-- Ids of unnumbered definitions are check values by the division through the generator
polynomial. They are derived from nothing but the words on the two sides of the equality sign, and
no id or error of any definition tells how it was spaced. -/
theorem id_of_words :
    (∀ bytes, (Crc32.checksum bytes).toBitVec = ~~~(Crc32.remainder bytes).reverse) ∧
    (∀ cs, derivedId cs = wordsChecksum (words (unbracketed cs))) ∧
    (∀ cs d left right, read cs = .ok d → cut? '=' (body cs) = some (left, right) →
      '#' ∉ (words left).headD [] →
      d.id = wordsChecksum (words (unbracketed left) ++ ['='] :: words (unbracketed right))) ∧
    (∀ cs cs', words cs = words cs' → words (body cs) = words (body cs')) ∧
    ∀ cs cs', words (body cs) = words (body cs') →
      (read cs).map (·.id) = (read cs').map (·.id) := by
  refine ⟨Crc32.toBitVec_checksum, derivedId_eq_wordsChecksum, ?_, fun _ _ => words_body_congr,
    fun _ _ => map_id_read_respaced⟩
  intro cs d left right hread hcut hunnumbered
  rw [id_of_read_unnumbered hread hcut hunnumbered, derivedId_eq_wordsChecksum,
    ← idWords_eq_words_unbracketed, idWords_sides, idWords_eq_words_unbracketed,
    idWords_eq_words_unbracketed]

def vectorLine : List Char := "vector {t:Type} # [ t ] = Vector t;".toList

/-- The same line in other spacing. -/
def vectorLineRespaced : List Char := " vector  {t:Type}\t# [ t ]\n=  Vector t ;".toList

/-- The generic vector has its known id, however it is spaced. -/
theorem id_of_words_vectorLine :
    (∃ d, read vectorLine = .ok d ∧ d.id = 0x1cb5c415 ∧
      d.id = wordsChecksum (words "vector t:Type # [ t ] = Vector t".toList)) ∧
    (read vectorLineRespaced).map (·.id) = .ok 0x1cb5c415 := by
  obtain ⟨-, -, hunnumbered, -, hrespaced⟩ := id_of_words
  have hwords : words (body vectorLineRespaced) = words (body vectorLine) := by decide +kernel
  have hread : (read vectorLine).map (·.id) = .ok 0x1cb5c415 := by decide +kernel
  refine ⟨?_, (hrespaced _ _ hwords).trans hread⟩
  cases hline : read vectorLine with
  | error e =>
    rw [hline] at hread
    cases hread
  | ok d =>
    rw [hline] at hread
    have hid := hunnumbered vectorLine d "vector {t:Type} # [ t ] ".toList " Vector t".toList hline
      (by decide +kernel) (by decide +kernel)
    exact ⟨d, rfl, Except.ok.inj hread, hid.trans (by decide +kernel)⟩

end Definition

end TypeLang
