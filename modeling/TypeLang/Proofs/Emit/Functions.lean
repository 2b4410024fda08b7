import TypeLang.Emit.Handler
import TypeLang.Proofs.Text.Indentation

/-!
# Functions of a text

Functions that are closed by a brace of their own are found again when they are written one after
the other: the scan goes from one signature line behind the closing brace to the next. In turn
every closed function found in a text stands in it, signature line and body, without a gap.
-/
namespace TypeLang.FunctionText

open Text

variable {indent line : List Char} {ls rest : List (List Char)} {f : FunctionText}

/-- Some line of the body is a closing brace at the indentation. -/
def IsClosed (indent : List Char) (f : FunctionText) : Prop :=
  ∃ line ∈ inclusiveLines f.body, lineAt? indent line = some ['\x7d']

instance (indent : List Char) (f : FunctionText) : Decidable (f.IsClosed indent) :=
  inferInstanceAs (Decidable (∃ line ∈ inclusiveLines f.body, _))

/-- A function that starts with a signature, and whose body runs from an opening brace at the
indentation to the first closing one. -/
structure IsWhole (indent : List Char) (f : FunctionText) : Prop where
  isSignature : isSignature f.signature
  trimmed : trimEnd f.signature = f.signature
  unbroken : '\n' ∉ f.signature
  isLine : ∀ l ∈ inclusiveLines f.body, IsLine l
  body : ∃ before last, inclusiveLines f.body = before ++ [last] ∧
    before.head?.bind (lineAt? indent) = some ['\x7b'] ∧
    (∀ l ∈ before, lineAt? indent l ≠ some ['\x7d']) ∧ lineAt? indent last = some ['\x7d']

/-- The signature line of a function. -/
def opening (indent : List Char) (f : FunctionText) : List Char :=
  indent ++ f.signature ++ ['\n']

theorem text_eq (f : FunctionText) (indent : List Char) :
    f.text indent = (f.opening indent :: inclusiveLines f.body).flatten := by
  simp [FunctionText.text, opening]

/-! ## Lines -/

theorem lineAt?_append (indent cs : List Char) :
    lineAt? indent (indent ++ cs) = some (trimEnd cs) := by
  simp [lineAt?]

/-- The line feed of a line is a blank at its end, so it is trimmed off. -/
theorem newline_notMem_trimEnd {behind : List Char} (hdrop : dropStart? indent line = some behind)
    (hline : IsLine line) : '\n' ∉ trimEnd behind := by
  obtain ⟨body, hbody, rfl⟩ := hline
  have happend := append_of_dropStart? hdrop
  rcases List.eq_nil_or_concat behind with rfl | ⟨front, last, rfl⟩
  · simp
  · rw [List.concat_eq_append, ← List.append_assoc] at happend
    obtain ⟨rfl, hlast⟩ := List.append_inj' happend rfl
    rw [List.concat_eq_append, hlast, trimEnd_append_newline]
    intro hmem
    exact hbody (List.mem_append_right _ ((trimEnd_prefix_self front).subset hmem))

/-- A line that says nothing is no signature. -/
theorem isSignature_newline : ∀ cs ∈ lineAt? indent ['\n'], isSignature cs = false := by
  intro cs hcs
  obtain ⟨behind, hdrop, rfl⟩ := Option.map_eq_some_iff.mp hcs
  have happend := append_of_dropStart? hdrop
  have hblank : ∀ c ∈ behind, isBlank c := by
    intro c hc
    have hmem : c ∈ ['\n'] := by
      rw [← happend]
      exact List.mem_append_right _ hc
    rw [List.mem_singleton.mp hmem]
    decide
  rw [← List.nil_append behind, trimEnd_append_of_blank hblank]
  decide

theorem signature?_newline (indent : List Char) (rest : List (List Char)) :
    signature? indent ['\n'] rest = none := by
  simp only [signature?]
  split
  · cases hline : lineAt? indent ['\n'] with
    | none => rfl
    | some cs => simp [isSignature_newline cs hline]
  · rfl

theorem signature?_eq_some {signature : List Char}
    (h : signature? indent line rest = some signature) :
    rest.head?.bind (lineAt? indent) = some ['\x7b'] ∧ lineAt? indent line = some signature ∧
      isSignature signature := by
  simp only [signature?] at h
  split at h
  · next hopen =>
    obtain ⟨hline, hsignature⟩ := Option.filter_eq_some_iff.mp h
    exact ⟨hopen, hline, hsignature⟩
  · cases h

/-! ## What a scan finds -/

section Scan

variable {signature : List Char}

/-- A function with a closing brace ends there, and the scan goes on behind it. -/
theorem ofLines_of_closed {before after : List (List Char)} {last : List Char}
    (hsignature : signature? indent line rest = some signature)
    (hcut : cutLines? (fun l => lineAt? indent l == some ['\x7d']) rest =
      some (before, last, after)) :
    ofLines indent (line :: rest) =
      ⟨signature, closeLine (before.flatten ++ last)⟩ :: ofLines indent after := by
  rw [ofLines]
  simp only [hsignature]
  split
  · next hnone => cases hcut.symm.trans hnone
  · next hsome =>
    cases hcut.symm.trans hsome
    rfl

/-- A function without a closing brace is the last one. -/
theorem ofLines_of_unclosed (hsignature : signature? indent line rest = some signature)
    (hcut : cutLines? (fun l => lineAt? indent l == some ['\x7d']) rest = none) :
    ofLines indent (line :: rest) = [⟨signature, closeLine rest.flatten⟩] := by
  rw [ofLines]
  simp only [hsignature]
  split
  · rfl
  · next hsome => cases hcut.symm.trans hsome

end Scan

/-- A line with a signature at the indentation starts a function if the next line opens a body. -/
structure Starts (indent line : List Char) (rest : List (List Char)) (signature : List Char) :
    Prop where
  stands : lineAt? indent line = some signature
  isSignature : isSignature signature
  opens : ∃ opening more, rest = opening :: more ∧ lineAt? indent opening = some ['\x7b']

/-- A line has a signature exactly when it starts a function. -/
theorem signature?_eq_some_iff {signature : List Char} :
    signature? indent line rest = some signature ↔ Starts indent line rest signature := by
  constructor
  · intro h
    obtain ⟨hopen, hline, hsignature⟩ := signature?_eq_some h
    obtain ⟨opening, hhead, hopening⟩ := Option.bind_eq_some_iff.mp hopen
    obtain ⟨more, rfl⟩ := List.head?_eq_some_iff.mp hhead
    exact ⟨hline, hsignature, opening, more, rfl, hopening⟩
  · rintro ⟨hline, hsignature, opening, more, rfl, hopening⟩
    rw [signature?, if_pos (by rw [List.head?_cons, Option.bind_some, hopening]), hline,
      Option.filter_some, if_pos hsignature]

/-- The functions found among lines. A line that starts none is passed over. The body of one that
is started goes to the first closing brace at the indentation, whatever stands on the lines between,
or to the end if there is no such brace; the scan goes on behind it. All lines of a body are there
byte for byte, and only the last one is given the line feed it may lack. -/
inductive Found (indent : List Char) : List (List Char) → List FunctionText → Prop
  | done : Found indent [] []
  | skip {line : List Char} {rest : List (List Char)} {functions : List FunctionText} :
      (∀ signature, ¬Starts indent line rest signature) → Found indent rest functions →
      Found indent (line :: rest) functions
  | closed {line last signature : List Char} {before after : List (List Char)}
      {functions : List FunctionText} :
      Starts indent line (before ++ last :: after) signature →
      (∀ l ∈ before, lineAt? indent l ≠ some ['\x7d']) → lineAt? indent last = some ['\x7d'] →
      Found indent after functions →
      Found indent (line :: (before ++ last :: after))
        (⟨signature, closeLine (before.flatten ++ last)⟩ :: functions)
  | unclosed {line signature : List Char} {rest : List (List Char)} :
      Starts indent line rest signature → (∀ l ∈ rest, lineAt? indent l ≠ some ['\x7d']) →
      Found indent (line :: rest) [⟨signature, closeLine rest.flatten⟩]

/-- The functions of a text are what a scan of its lines finds. -/
theorem found_ofLines (indent : List Char) (ls : List (List Char)) :
    Found indent ls (ofLines indent ls) := by
  fun_induction ofLines indent ls with
  | case1 => exact .done
  | case2 line rest hnone ih =>
    refine .skip (fun signature hstarts => ?_) ih
    rw [signature?_eq_some_iff.mpr hstarts] at hnone
    cases hnone
  | case3 line rest signature hsignature hcut =>
    refine .unclosed (signature?_eq_some_iff.mp hsignature) fun l hl => ?_
    exact beq_eq_false_iff_ne.mp (cutLines?_eq_none_iff.mp hcut l hl)
  | case4 line rest signature hsignature before last after hcut ih =>
    obtain ⟨rfl, hbefore, hlast⟩ := cutLines?_eq_some_iff.mp hcut
    exact .closed (signature?_eq_some_iff.mp hsignature)
      (fun l hl => beq_eq_false_iff_ne.mp (hbefore l hl)) (eq_of_beq hlast) ih

/-- What a scan finds are the functions of the text. -/
theorem Found.eq_ofLines {functions : List FunctionText} (h : Found indent ls functions) :
    functions = ofLines indent ls := by
  induction h with
  | done => rw [ofLines]
  | @skip line rest functions hnone _ ih =>
    rw [ofLines]
    split
    · exact ih
    · next signature hsome => exact absurd (signature?_eq_some_iff.mp hsome) (hnone signature)
  | @closed line last signature before after functions hstarts hbefore hlast _ ih =>
    have hcut : cutLines? (fun l => lineAt? indent l == some ['\x7d']) (before ++ last :: after) =
        some (before, last, after) :=
      cutLines?_append (fun l hl => beq_eq_false_iff_ne.mpr (hbefore l hl)) (by simp [hlast])
    rw [ofLines_of_closed (signature?_eq_some_iff.mpr hstarts) hcut, ih]
  | unclosed hstarts hrest =>
    refine (ofLines_of_unclosed (signature?_eq_some_iff.mpr hstarts) ?_).symm
    exact cutLines?_eq_none_iff.mpr fun l hl => beq_eq_false_iff_ne.mpr (hrest l hl)

/-- A scan finds one list of functions. -/
theorem found_iff {functions : List FunctionText} :
    Found indent ls functions ↔ functions = ofLines indent ls :=
  ⟨Found.eq_ofLines, fun h => h ▸ found_ofLines indent ls⟩

/-! ## Functions written one after the other -/

theorem ofLines_newline (indent : List Char) (rest : List (List Char)) :
    ofLines indent (['\n'] :: rest) = ofLines indent rest := by
  rw [ofLines]
  split
  · rfl
  · next h =>
    rw [signature?_newline] at h
    cases h

/-- A whole function in front of some lines is the first one found. -/
theorem ofLines_function_append (h : f.IsWhole indent) (rest : List (List Char)) :
    ofLines indent (f.opening indent :: inclusiveLines f.body ++ rest) =
      f :: ofLines indent rest := by
  obtain ⟨before, last, hbody, hhead, hbefore, hlast⟩ := h.body
  have hrest : inclusiveLines f.body ++ rest = before ++ last :: rest := by simp [hbody]
  have hsignature : signature? indent (f.opening indent) (before ++ last :: rest) =
      some f.signature := by
    have hopen : (before ++ last :: rest).head?.bind (lineAt? indent) = some ['\x7b'] := by
      cases before with
      | nil => cases hhead
      | cons first before => exact hhead
    rw [signature?, if_pos hopen, opening, List.append_assoc, lineAt?_append,
      trimEnd_append_newline, h.trimmed]
    simp [h.isSignature]
  have hcut : cutLines? (fun l => lineAt? indent l == some ['\x7d']) (before ++ last :: rest) =
      some (before, last, rest) := by
    apply cutLines?_append
    · exact fun l hl => beq_eq_false_iff_ne.mpr (hbefore l hl)
    · simp [hlast]
  have hclose : closeLine (before.flatten ++ last) = f.body := by
    have hflatten : before.flatten ++ last = (inclusiveLines f.body).flatten := by simp [hbody]
    rw [hflatten, closeLine_of_isLine h.isLine, flatten_inclusiveLines]
  rw [List.cons_append, hrest, ofLines_of_closed hsignature hcut, hclose]

/-- The lines of functions with a blank line between neighbours. -/
def joinedLines (indent : List Char) : List FunctionText → List (List Char)
  | [] => []
  | [f] => f.opening indent :: inclusiveLines f.body
  | f :: g :: functions =>
    f.opening indent :: inclusiveLines f.body ++ ['\n'] :: joinedLines indent (g :: functions)

variable {functions : List FunctionText}

theorem joinWith_text (indent : List Char) (functions : List FunctionText) :
    joinWith ['\n'] (functions.map fun f => f.text indent) =
      (joinedLines indent functions).flatten := by
  fun_induction joinedLines indent functions with
  | case1 => rfl
  | case2 f => simp [joinWith, text_eq]
  | case3 f g functions ih =>
    simp only [joinWith, List.map_cons, List.intercalate_cons_cons] at ih ⊢
    rw [ih, text_eq]
    simp

/-- Whole functions are found in the lines that they are written in. -/
theorem ofLines_joinedLines (h : ∀ f ∈ functions, f.IsWhole indent) :
    ofLines indent (joinedLines indent functions) = functions := by
  fun_induction joinedLines indent functions with
  | case1 => rw [ofLines]
  | case2 f =>
    have hfirst := ofLines_function_append (h f List.mem_cons_self) []
    rwa [List.append_nil, ofLines] at hfirst
  | case3 f g functions ih =>
    rw [ofLines_function_append (h f List.mem_cons_self), ofLines_newline,
      ih fun k hk => h k (List.mem_cons_of_mem _ hk)]

/-- The lines of functions are their own and the blank ones in between. -/
theorem mem_joinedLines {l : List Char} (h : l ∈ joinedLines indent functions) :
    l = ['\n'] ∨ ∃ f ∈ functions, l = f.opening indent ∨ l ∈ inclusiveLines f.body := by
  fun_induction joinedLines indent functions with
  | case1 => simp at h
  | case2 f => exact .inr ⟨f, List.mem_cons_self, List.mem_cons.mp h⟩
  | case3 f g functions ih =>
    simp only [List.cons_append, List.mem_cons, List.mem_append] at h
    rcases h with h | h | h | h
    · exact .inr ⟨f, List.mem_cons_self, .inl h⟩
    · exact .inr ⟨f, List.mem_cons_self, .inr h⟩
    · exact .inl h
    · rcases ih h with h | ⟨k, hk, h⟩
      · exact .inl h
      · exact .inr ⟨k, List.mem_cons_of_mem _ hk, h⟩

theorem isLine_opening (hindent : '\n' ∉ indent) (hsignature : '\n' ∉ f.signature) :
    IsLine (f.opening indent) :=
  ⟨indent ++ f.signature, by simp [hindent, hsignature], rfl⟩

theorem inclusiveLines_joined (hindent : '\n' ∉ indent)
    (hsignature : ∀ f ∈ functions, '\n' ∉ f.signature)
    (hbody : ∀ f ∈ functions, ∀ l ∈ inclusiveLines f.body, IsLine l) :
    inclusiveLines (joinWith ['\n'] (functions.map fun f => f.text indent)) =
      joinedLines indent functions := by
  rw [joinWith_text, inclusiveLines_flatten]
  intro l hl
  rcases mem_joinedLines hl with rfl | ⟨f, hf, rfl | hl⟩
  · exact ⟨[], by simp, rfl⟩
  · exact isLine_opening hindent (hsignature f hf)
  · exact hbody f hf l hl

/-- Whole functions written one after the other are found again. -/
theorem ofText_joined (hindent : '\n' ∉ indent) (h : ∀ f ∈ functions, f.IsWhole indent) :
    ofText indent (joinWith ['\n'] (functions.map fun f => f.text indent)) = functions := by
  rw [ofText, inclusiveLines_joined hindent (fun f hf => (h f hf).unbroken)
    fun f hf => (h f hf).isLine, ofLines_joinedLines h]

/-! ## Functions found in a text -/

/-- A closed function stands among the lines it was found in. -/
theorem exists_of_mem_ofLines (hls : ∀ l ∈ ls, IsLine l) (hf : f ∈ ofLines indent ls)
    (hclosed : f.IsClosed indent) : ∃ front first before last back,
      ls = front ++ first :: (before ++ last :: back) ∧
        signature? indent first (before ++ last :: back) = some f.signature ∧
        (∀ l ∈ before, lineAt? indent l ≠ some ['\x7d']) ∧
        lineAt? indent last = some ['\x7d'] ∧ f.body = (before ++ [last]).flatten := by
  fun_induction ofLines indent ls with
  | case1 => cases hf
  | case2 line rest hnone ih =>
    obtain ⟨front, first, before, last, back, rfl, hfound⟩ :=
      ih (fun l hl => hls l (List.mem_cons_of_mem _ hl)) hf
    exact ⟨line :: front, first, before, last, back, rfl, hfound⟩
  | case3 line rest signature hsignature hcut =>
    -- Without a closing brace the body is the rest of the text, and has none either.
    rw [List.mem_singleton] at hf
    subst hf
    obtain ⟨l, hl, hlast⟩ := hclosed
    have hrest : ∀ l ∈ rest, IsLine l := fun l hl => hls l (List.mem_cons_of_mem _ hl)
    simp only [closeLine_of_isLine hrest, inclusiveLines_flatten hrest] at hl
    have hnone := cutLines?_eq_none_iff.mp hcut l hl
    simp [hlast] at hnone
  | case4 line rest signature hsignature before last after hcut ih =>
    obtain ⟨rfl, hbefore, hlast⟩ := cutLines?_eq_some_iff.mp hcut
    rcases List.mem_cons.mp hf with rfl | hf
    · refine ⟨[], line, before, last, after, rfl, hsignature, ?_, eq_of_beq hlast, ?_⟩
      · exact fun l hl => beq_eq_false_iff_ne.mp (hbefore l hl)
      · have hbody : ∀ l ∈ before ++ [last], IsLine l := fun l hl =>
          hls l (by simp only [List.mem_append, List.mem_cons] at hl ⊢; grind)
        have hflatten : before.flatten ++ last = (before ++ [last]).flatten := by simp
        simp only [hflatten, closeLine_of_isLine hbody]
    · obtain ⟨front, first, before', last', back, rfl, hfound⟩ :=
        ih (fun l hl => hls l (by simp [hl])) hf
      exact ⟨line :: (before ++ last :: front), first, before', last', back, by simp, hfound⟩

/-- What is known of a closed function that was found: it is whole, its lines are lines of the text,
and its body follows a line with its signature. -/
theorem of_mem_ofText {text : List Char} (htext : ∀ l ∈ inclusiveLines text, IsLine l)
    (hf : f ∈ ofText indent text) (hclosed : f.IsClosed indent) :
    f.IsWhole indent ∧ (∀ l ∈ inclusiveLines f.body, l ∈ inclusiveLines text) ∧
      ∃ front line back, inclusiveLines text = front ++ line :: (inclusiveLines f.body ++ back) ∧
        lineAt? indent line = some f.signature := by
  obtain ⟨front, first, before, last, back, htextLines, hsignature, hbefore, hlast, hbody⟩ :=
    exists_of_mem_ofLines htext hf hclosed
  obtain ⟨hopen, hline, hstart⟩ := signature?_eq_some hsignature
  have hmem : ∀ l ∈ first :: (before ++ [last]), l ∈ inclusiveLines text := by
    intro l hl
    rw [htextLines]
    simp only [List.mem_append, List.mem_cons] at hl ⊢
    grind
  have hbodyLine : ∀ l ∈ before ++ [last], IsLine l := fun l hl =>
    htext l (hmem l (List.mem_cons_of_mem _ hl))
  have hlines : inclusiveLines f.body = before ++ [last] := by
    rw [hbody, inclusiveLines_flatten hbodyLine]
  obtain ⟨behind, hdrop, hmeans⟩ := Option.map_eq_some_iff.mp hline
  refine ⟨⟨hstart, ?_, ?_, ?_, before, last, hlines, ?_, hbefore, hlast⟩, ?_, front, first, back,
    ?_, hline⟩
  · rw [← hmeans, trimEnd_trimEnd]
  · exact hmeans ▸ newline_notMem_trimEnd hdrop (htext first (hmem first List.mem_cons_self))
  · rwa [hlines]
  · cases before with
    | nil =>
      simp only [List.nil_append, List.head?_cons, Option.bind_some, hlast] at hopen
      cases hopen
    | cons l before => exact hopen
  · intro l hl
    rw [hlines] at hl
    exact hmem l (List.mem_cons_of_mem _ hl)
  · rw [htextLines, hlines]
    simp

end TypeLang.FunctionText
