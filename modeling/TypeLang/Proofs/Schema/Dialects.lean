import TypeLang.Proofs.Schema.OneLine
import TypeLang.Schema.Listing

/-!
# Two dialects

A schema is a text or a listing. Where it has neither gates nor type variables, and no name or type
has a character that one of the dialects takes for something else, the two dialects say the same:
the listing is read as the definitions that the text is read as, sources included, and both are
refused when a result type is malformed.
-/
namespace TypeLang

open Text Document

/-- A definition in a form that both dialects have. -/
structure Signature where
  name : String
  id : UInt32
  parameters : List ListedParameter
  type : String

/-- The characters that a dialect takes for something else in a name or a type. -/
def marks : List Char := ['#', '=', ':', ';', '\x7b', '\x7d', '?', '!', '/']

/-- A text without blanks and without marks. -/
def IsPlainText (s : String) : Prop := ∀ c ∈ s.toList, isBlank c = false ∧ c ∉ marks

/-- A type as both dialects spell it: the one mark it may be is the number sign, the type
of flags words. -/
def IsPlainType (s : String) : Prop := s = "#" ∨ IsPlainText s

instance (s : String) : Decidable (IsPlainText s) :=
  List.decidableBAll (fun c => isBlank c = false ∧ c ∉ marks) s.toList

instance (s : String) : Decidable (IsPlainType s) :=
  inferInstanceAs (Decidable (s = "#" ∨ IsPlainText s))

namespace Signature

/-- The signature as an entry of a listing, with its id in hexadecimal digits. -/
def entry (s : Signature) : ListedEntry := ⟨.text (hexWord s.id), s.name, s.parameters, s.type⟩

/-- The signature as a line of a schema text. -/
def line (s : Signature) : String :=
  s.name ++ "#" ++ hexWord s.id
    ++ String.join (s.parameters.map fun p => " " ++ p.name ++ ":" ++ p.type)
    ++ " = " ++ s.type ++ ";"

/-- Both dialects can express the signature. The result type need not be well-formed. -/
structure IsShared (s : Signature) : Prop where
  name : [] ∉ splitWhere (· == '.') s.name.toList
  name_plain : IsPlainText s.name
  parameter_name : ∀ p ∈ s.parameters, p.name ≠ "" ∧ IsPlainText p.name
  parameter_type : ∀ p ∈ s.parameters, IsPlainType p.type ∧
    (p.type = "#" ∨ (TypeExpr.read p.type.toList).isOk)
  type_plain : IsPlainType s.type

/-- A shared signature has plain names and types that both dialects read. -/
theorem isShared_iff {s : Signature} : s.IsShared ↔
    ([] ∉ splitWhere (· == '.') s.name.toList ∧ IsPlainText s.name) ∧
      (∀ p ∈ s.parameters, p.name ≠ "" ∧ IsPlainText p.name) ∧
      (∀ p ∈ s.parameters, IsPlainType p.type ∧
        (p.type = "#" ∨ (TypeExpr.read p.type.toList).isOk)) ∧
      IsPlainType s.type :=
  ⟨fun ⟨a, b, c, d, e⟩ => ⟨⟨a, b⟩, c, d, e⟩, fun ⟨⟨a, b⟩, c, d, e⟩ => ⟨a, b, c, d, e⟩⟩

instance (s : Signature) : Decidable s.IsShared := decidable_of_iff _ isShared_iff.symm

/-- A parameter as it is written. -/
def token (p : ListedParameter) : List Char := p.name.toList ++ ':' :: p.type.toList

def row (s : Signature) : Row := ⟨s.name.toList, s.id, s.parameters.map token, s.type.toList⟩

theorem toList_line (s : Signature) : s.line.toList = s.row.text := by
  have hspaced : (String.join (s.parameters.map fun p => " " ++ p.name ++ ":" ++ p.type)).toList =
      spaced (s.parameters.map token) := by
    rw [String.toList_join, spaced, List.flatMap_map, List.flatMap_map]
    simp [token]
  simp [line, hspaced, row, Row.text, Row.left, Row.head, hexWord]

end Signature

/-! ## Plain texts -/

theorem IsPlainText.notMem {s : String} (h : IsPlainText s) {mark : Char} (hmark : mark ∈ marks) :
    mark ∉ s.toList := fun hmem => (h mark hmem).2 hmark

/-- Where a plain text has no blanks and no marks, a plain type has at most a number sign. -/
theorem IsPlainType.solid {s : String} (h : IsPlainType s) : ∀ c ∈ s.toList, isBlank c = false := by
  rcases h with rfl | h
  · exact List.forall_mem_singleton.mpr (by decide)
  · exact fun c hc => (h c hc).1

theorem IsPlainType.notMem {s : String} (h : IsPlainType s) {mark : Char} (hmark : mark ∈ marks)
    (hne : mark ≠ '#') : mark ∉ s.toList := by
  rcases h with rfl | h
  · simpa using hne
  · exact h.notMem hmark

/-! ## Ids -/

/-- Eight digits are hexadecimal, or give nothing away. -/
theorem spelling_hexWord (id : UInt32) :
    Listing.Spelling.of? (hexWord id) = some .hexadecimal ∨
      Listing.Spelling.of? (hexWord id) = none := by
  have htoken := isToken_hexDigits id
  have hhead : (hexDigits 8 id.toNat).head? ≠ some '-' := fun hhead =>
    forall_mem_hexDigits (P := (· ≠ '-')) (by decide) _ _ _ (List.mem_of_head? hhead) rfl
  simp only [Listing.Spelling.of?, hexWord, String.toList_ofList, htoken.trim_eq, hhead,
    utf8ByteSize_hexDigits]
  split <;> simp

/-- Nothing is dropped from a text that lacks a character of the start. -/
theorem dropStarts_of_notMem {start cs : List Char} {c : Char} (hc : c ∈ start) (hcs : c ∉ cs) :
    Listing.dropStarts start cs = cs := by
  have hnone : dropStart? start cs = none := by
    rw [Option.eq_none_iff_forall_ne_some]
    intro rest hrest
    exact hcs (append_of_dropStart? hrest ▸ List.mem_append_left rest hc)
  rw [Listing.dropStarts]
  split
  · rfl
  · next hsome => simp [hnone] at hsome

/-- An id is read back from its hexadecimal digits. -/
theorem readId_hexWord (id : UInt32) :
    Listing.readId .hexadecimal (.text (hexWord id)) = .ok id := by
  have htoken := isToken_hexDigits id
  have hdrop : ∀ letter ∈ ['x', 'X'],
      Listing.dropStarts ['0', letter] (hexDigits 8 id.toNat) = hexDigits 8 id.toNat := by
    refine fun letter hletter => dropStarts_of_notMem (c := letter) (by simp) fun hmem => ?_
    exact forall_mem_hexDigits (P := (· ∉ ['x', 'X'])) (by decide) _ _ _ hmem hletter
  have hstarts : "0x".toList = ['0', 'x'] ∧ "0X".toList = ['0', 'X'] := by decide
  simp only [Listing.readId, hexWord, String.toList_ofList, htoken.trim_eq, hstarts,
    hdrop 'x' (by decide), hdrop 'X' (by decide), readWord_hexDigits]
  rfl

/-- Ids of eight hexadecimal digits are taken for hexadecimal. -/
theorem spelling_entries (signatures : List Signature) :
    Listing.spelling (signatures.map Signature.entry) = .ok .hexadecimal := by
  have hspelled : ∀ spelled ∈ Listing.spelled (signatures.map Signature.entry),
      spelled.1 = .hexadecimal := by
    simp only [Listing.spelled, List.filterMap_map, List.mem_filterMap]
    rintro spelled ⟨s, -, hs⟩
    rcases spelling_hexWord s.id with hsome | hnone
    · simp only [Function.comp, Signature.entry, hsome, Option.map_some, Option.some.injEq] at hs
      rw [← hs]
    · simp [Signature.entry, hnone] at hs
  rw [Listing.spelling]
  split
  · rfl
  · next first name rest hcons =>
    rw [hcons] at hspelled
    obtain ⟨rfl, hrest⟩ := List.forall_mem_cons.mp hspelled
    have hsame : (rest.find? fun entry => entry.1 != Listing.Spelling.hexadecimal) = none := by
      rw [List.find?_eq_none]
      intro entry hentry
      simp [hrest entry hentry]
    simp [hsame]

namespace Signature.IsShared

variable {s : Signature}

theorem exists_name (h : s.IsShared) :
    ∃ name, QualifiedName.read? s.name.toList = some name ∧ name.text.toList = s.name.toList := by
  have hparts : (splitWhere (· == '.') s.name.toList).any List.isEmpty = false := by
    rw [List.any_eq_false]
    intro part hpart hempty
    exact h.name (List.isEmpty_iff.mp hempty ▸ hpart)
  have hread : ∃ name, QualifiedName.read? s.name.toList = some name := by
    simp only [QualifiedName.read?, hparts]
    exact ⟨_, rfl⟩
  obtain ⟨name, hname⟩ := hread
  exact ⟨name, hname, QualifiedName.toList_text_of_read? hname⟩

theorem trim_type (h : s.IsShared) : trim s.type.toList = s.type.toList := by
  by_cases hempty : s.type.toList = []
  · rw [hempty, trim_nil]
  · exact IsToken.trim_eq ⟨hempty, h.type_plain.solid⟩

theorem isPlain_row (h : s.IsShared) : s.row.IsPlain where
  name c hc := by
    have hmark : ∀ {mark}, mark ∈ marks → c ≠ mark := fun hmark =>
      ne_of_mem_of_not_mem hc (h.name_plain.notMem hmark)
    exact ⟨(h.name_plain c hc).1, hmark (by decide), hmark (by decide), hmark (by decide)⟩
  ne_nil := List.forall_mem_map.mpr fun p _ => by simp [token]
  tokens := by
    refine List.forall_mem_map.mpr fun p hp => ?_
    rw [token, List.forall_mem_append, List.forall_mem_cons]
    have hname := (h.parameter_name p hp).2
    have htype := (h.parameter_type p hp).1
    refine ⟨fun c hc => ⟨(hname c hc).1, ?_, ?_⟩, by decide, fun c hc => ⟨htype.solid c hc, ?_, ?_⟩⟩
    · exact ne_of_mem_of_not_mem hc (hname.notMem (by decide))
    · exact ne_of_mem_of_not_mem hc (hname.notMem (by decide))
    · exact ne_of_mem_of_not_mem hc (htype.notMem (by decide) (by decide))
    · exact ne_of_mem_of_not_mem hc (htype.notMem (by decide) (by decide))
  trimmed := h.trim_type
  unclosed hlast :=
    h.type_plain.notMem (by decide) (by decide) (List.mem_of_getLast? hlast)

/-- A mark that is no number sign and no colon is in no part of the row. -/
theorem slash_notMem (h : s.IsShared) : ∀ token ∈ s.row.tokens, '/' ∉ token := by
  refine List.forall_mem_map.mpr fun p hp => ?_
  have hname := (h.parameter_name p hp).2.notMem (show '/' ∈ marks by decide)
  have htype := (h.parameter_type p hp).1.notMem (show '/' ∈ marks by decide) (by decide)
  simp [token, hname, htype]

theorem isClosedLine (h : s.IsShared) : IsClosedLine s.line.toList := by
  rw [toList_line]
  refine h.isPlain_row.isClosedLine (Row.uncommented_text ?_ ?_ ?_)
  · exact uncommented_of_notMem (h.name_plain.notMem (by decide))
  · exact fun token htoken => uncommented_of_notMem (h.slash_notMem token htoken)
  · exact uncommented_of_notMem (h.type_plain.notMem (by decide) (by decide))

theorem unbroken_line (h : s.IsShared) : Unbroken s.line := by
  have hplain := h.isPlain_row
  have hnewline : ∀ {cs : List Char}, (∀ c ∈ cs, isBlank c = false) → '\n' ∉ cs := fun hcs hmem =>
    absurd (hcs _ hmem) (by decide)
  rw [unbroken_iff, toList_line]
  exact Row.newline_notMem_text (hnewline fun c hc => (hplain.name c hc).1)
    (fun token htoken => hnewline fun c hc => (hplain.tokens token htoken c hc).1)
    (hnewline h.type_plain.solid)

/-! ## Entries and lines -/

/-- A parameter is the same in both dialects. -/
theorem exists_readParameter (h : s.IsShared) {p : ListedParameter} (hp : p ∈ s.parameters) :
    ∃ q, Listing.readParameter p = .ok q ∧ Parameter.read (token p) = .ok q ∧
      q.text.toList = token p := by
  obtain ⟨hne, hname⟩ := h.parameter_name p hp
  obtain ⟨hplain, htype⟩ := h.parameter_type p hp
  have hmark : '?' ∉ p.type.toList := hplain.notMem (by decide) (by decide)
  have hread : ∃ type, ParameterType.read p.type.toList = .ok type ∧
      type.text.toList = p.type.toList ∧ p.type.toList ≠ [] := by
    by_cases hflags : p.type = "#"
    · rw [hflags]
      exact ⟨.flags, rfl, rfl, by decide⟩
    · obtain ⟨type, hread⟩ := exists_of_isOk (htype.resolve_left hflags)
      have hchars : p.type.toList ≠ ['#'] := fun hchars =>
        hflags (String.toList_inj.mp hchars)
      have hcut : cut? '?' p.type.toList = none :=
        cutWhere?_eq_none_iff.mpr fun c hc =>
          beq_eq_false_iff_ne.mpr (ne_of_mem_of_not_mem hc hmark)
      refine ⟨.value type none, ?_, TypeExpr.toList_text_of_read hread,
        TypeExpr.ne_nil_of_read hread⟩
      rw [ParameterType.read, if_neg hchars, hcut, hread]
      rfl
  obtain ⟨type, hread, htext, hsome⟩ := hread
  have hcut : cut? ':' (token p) = some (p.name.toList, p.type.toList) :=
    cut?_append (hname.notMem (by decide)) _
  have hungated : has '?' p.type.toList = false := by
    rwa [has, Bool.eq_false_iff, ne_eq, List.contains_iff_mem]
  refine ⟨⟨p.name, type⟩, ?_, ?_, ?_⟩
  · simp [Listing.readParameter, ParameterType.readUngated, hne, hungated, hread, Except.map,
      Except.mapError]
  · simp [Parameter.read, hcut, hne, hsome, hread, Except.map]
  · rw [Parameter.toList_text, htext, token]

/-- The parameters are the same in both dialects. -/
theorem exists_readParameters (h : s.IsShared) : ∃ ps,
    s.parameters.mapM Listing.readParameter = .ok ps ∧
      Definition.readParameters [] (s.parameters.map token) = .ok ps ∧
      ps.map (fun p => p.text.toList) = s.parameters.map token := by
  obtain ⟨ps, hps⟩ := exists_mapM fun p hp =>
    (h.exists_readParameter hp).imp fun q hq => hq.1
  refine ⟨ps, hps, Definition.readParameters_of_mapM ?_ (fun q hq => ?_) [], ?_⟩
  · rw [List.mapM_map]
    refine (mapM_eq_ok_congr (fun p hp q => ?_) ps).mp hps
    obtain ⟨q', hlisted, hread, -⟩ := h.exists_readParameter hp
    simp [hlisted, hread]
  · obtain ⟨p, -, hread⟩ := exists_of_mem_mapM hps hq
    simp [Parameter.needed?, Listing.gate?_of_readParameter hread]
  · refine map_eq_of_mapM hps fun p hp q hq => ?_
    obtain ⟨q', hlisted, -, htext⟩ := h.exists_readParameter hp
    rw [hlisted, Except.ok.injEq] at hq
    rw [← hq, htext]

theorem readResult_type (h : s.IsShared) :
    Listing.readResult s.type = Definition.readResult false s.type.toList := by
  by_cases hempty : s.type.toList = []
  · simp [Listing.readResult, Definition.readResult, hempty, words]
  · have hwords := IsToken.words_eq ⟨hempty, h.type_plain.solid⟩
    simp [Listing.readResult, Definition.readResult, hempty, hwords]

/-- An entry and its line are read alike: all that can go wrong is the result type. -/
theorem exists_reading (h : s.IsShared) (category : Category) : ∃ name ps,
    let reading := (Definition.readResult false s.type.toList).map fun result =>
      (⟨name, s.id, ps, result, category, false, some s.line⟩ : Definition)
    readStatement category s.line.toList = reading ∧
      Listing.readEntry .hexadecimal category s.entry = reading := by
  obtain ⟨name, hname, hnameText⟩ := h.exists_name
  obtain ⟨ps, hlisted, hparameters, htexts⟩ := h.exists_readParameters
  refine ⟨name, ps, ?_, ?_⟩
  · have hline : String.ofList s.row.text = s.line := by rw [← toList_line, String.ofList_toList]
    rw [readStatement, toList_line, h.isPlain_row.read_text, Row.read, hline]
    simp only [row, hname, hparameters]
    cases Definition.readResult false s.type.toList <;> rfl
  · have htemplate : (s.parameters.any fun p => p.type.toList.head? == some '!') = false := by
      rw [List.any_eq_false]
      intro p hp hhead
      exact (h.parameter_type p hp).1.notMem (show '!' ∈ marks by decide) (by decide)
        (List.mem_of_head? (eq_of_beq hhead))
    have hid : Listing.readId .hexadecimal s.entry.id = .ok s.id := readId_hexWord s.id
    have hresult : Listing.readResult s.entry.type = Definition.readResult false s.type.toList :=
      h.readResult_type
    rw [Listing.readEntry, hid, hresult]
    simp only [entry, hname, htemplate, hlisted]
    cases hread : Definition.readResult false s.type.toList with
    | error cause => rfl
    | ok result =>
      have htype := TypeExpr.toList_text_of_read (Definition.readResult_eq_ok.mp hread)
      have hrow : Definition.row ⟨name, s.id, ps, result, category, false, none⟩ = s.row := by
        rw [Definition.row, row, hnameText, htexts, htype]
      have htext : Definition.text ⟨name, s.id, ps, result, category, false, none⟩ = s.line := by
        rw [← String.toList_inj, Definition.toList_text, hrow, toList_line]
      simp only [bind, Except.bind, Bool.false_eq_true, if_false, htext]
      rfl

theorem readEntry_eq_ok_iff (h : s.IsShared) (category : Category) (d : Definition) :
    Listing.readEntry .hexadecimal category s.entry = .ok d ↔
      readStatement category s.line.toList = .ok d := by
  obtain ⟨name, ps, hline, hentry⟩ := h.exists_reading category
  rw [hline, hentry]

/-- A shared signature is read exactly when its result is a type. -/
theorem exists_readStatement_iff (h : s.IsShared) (category : Category) :
    (∃ d, readStatement category s.line.toList = .ok d) ↔ (TypeExpr.read s.type.toList).isOk := by
  obtain ⟨name, ps, hline, -⟩ := h.exists_reading category
  simp only [hline, map_eq_ok, Definition.readResult_eq_ok]
  constructor
  · rintro ⟨d, result, hread, -⟩
    exact isOk_of_eq_ok hread
  · intro hread
    obtain ⟨result, hread⟩ := exists_of_isOk hread
    exact ⟨_, result, hread, rfl⟩

end Signature.IsShared

/-! ## Schemas -/

/-- A schema text: constructors, and methods behind a separator line. -/
def textOf (constructors methods : List Signature) : String :=
  unlines (constructors.map Signature.line ++
    separatorLine .functions :: methods.map Signature.line)

/-- A schema as a listing. -/
def listingOf (constructors methods : List Signature) : Listing :=
  ⟨constructors.map Signature.entry, methods.map Signature.entry⟩

section Schemas

variable {signatures constructors methods : List Signature} {ds : List Definition}

/-- Both dialects read shared signatures as the same definitions. -/
theorem readEntries_eq_ok_iff (h : ∀ s ∈ signatures, s.IsShared) (category : Category)
    (ds : List Definition) :
    Listing.readEntries .hexadecimal category (signatures.map Signature.entry) = .ok ds ↔
      (signatures.map fun s => s.line.toList).mapM (readStatement category) = .ok ds := by
  rw [Listing.readEntries, List.mapM_map, List.mapM_map]
  refine mapM_eq_ok_congr (fun s hs d => ?_) ds
  rw [Function.comp, Function.comp, mapError_eq_ok, (h s hs).readEntry_eq_ok_iff]

/-- The lines of a text are read one by one. -/
theorem readSchema_textOf_eq_ok_iff (hconstructors : ∀ s ∈ constructors, s.IsShared)
    (hmethods : ∀ s ∈ methods, s.IsShared) :
    readSchema (textOf constructors methods) = .ok ds ↔ ∃ front back,
      (constructors.map fun s => s.line.toList).mapM (readStatement .types) = .ok front ∧
      (methods.map fun s => s.line.toList).mapM (readStatement .functions) = .ok back ∧
      front ++ back = ds := by
  have hunbroken : ∀ line ∈ constructors.map Signature.line ++
      separatorLine .functions :: methods.map Signature.line, Unbroken line := by
    rw [List.forall_mem_append, List.forall_mem_cons, List.forall_mem_map, List.forall_mem_map]
    exact ⟨fun s hs => (hconstructors s hs).unbroken_line, by decide,
      fun s hs => (hmethods s hs).unbroken_line⟩
  have hclosed : ∀ {signatures : List Signature}, (∀ s ∈ signatures, s.IsShared) →
      ∀ line ∈ signatures.map fun s => s.line.toList, IsClosedLine line := fun h =>
    List.forall_mem_map.mpr fun s hs => (h s hs).isClosedLine
  rw [textOf, readSchema_unlines hunbroken, List.map_append, List.map_cons, List.map_map,
    List.map_map, start, Function.comp_def, read_closedLines (hclosed hconstructors)]
  simp only [read_separatorLine, read_closedLines_end (hclosed hmethods)]

/-- The two dialects agree: a document that holds the listing of signatures is read as the text of
the signatures is read, and both are read exactly when every result type is well-formed. -/
theorem readListing_iff_readSchema (hshared : ∀ s ∈ constructors ++ methods, s.IsShared)
    {bytes : List UInt8} (hbytes : (Json.Node.read? bytes).bind Listing.ofNode? =
      some (listingOf constructors methods)) :
    (∀ ds, readListing bytes = .ok ds ↔ readSchema (textOf constructors methods) = .ok ds) ∧
      ((∃ ds, readListing bytes = .ok ds) ↔
        ∀ s ∈ constructors ++ methods, (TypeExpr.read s.type.toList).isOk) := by
  obtain ⟨hconstructors, hmethods⟩ := List.forall_mem_append.mp hshared
  have hlisting : ∀ ds, readListing bytes = .ok ds ↔
      readSchema (textOf constructors methods) = .ok ds := by
    intro ds
    rw [readListing, hbytes, readSchema_textOf_eq_ok_iff hconstructors hmethods]
    simp only [listingOf, Listing.definitions, ← List.map_append, spelling_entries, bind_eq_ok,
      pure_eq_ok, Except.ok.injEq, exists_eq_left', readEntries_eq_ok_iff hconstructors,
      readEntries_eq_ok_iff hmethods]
    simp only [exists_and_left]
  refine ⟨hlisting, ?_⟩
  have hread : ∀ {signatures : List Signature} (category : Category),
      (∀ s ∈ signatures, s.IsShared) →
        ((∃ ds, (signatures.map fun s => s.line.toList).mapM (readStatement category) = .ok ds) ↔
          ∀ s ∈ signatures, (TypeExpr.read s.type.toList).isOk) := by
    intro signatures category h
    rw [exists_mapM_iff, List.forall_mem_map]
    exact forall₂_congr fun s hs => (h s hs).exists_readStatement_iff category
  simp only [hlisting, readSchema_textOf_eq_ok_iff hconstructors hmethods, List.forall_mem_append,
    ← hread .types hconstructors, ← hread .functions hmethods]
  constructor
  · rintro ⟨ds, front, back, hfront, hback, -⟩
    exact ⟨⟨front, hfront⟩, ⟨back, hback⟩⟩
  · rintro ⟨⟨front, hfront⟩, ⟨back, hback⟩⟩
    exact ⟨_, front, back, hfront, hback, rfl⟩

end Schemas

/-- A constructor in a namespace, with an id that is all digits, a flags word and a nested type. -/
def sharedConstructors : List Signature :=
  [⟨"a.b", 0x00000012, [⟨"f", "#"⟩, ⟨"x", "Vector<Vector<int>>"⟩], "A"⟩]

def sharedMethods : List Signature := [⟨"get", 0xabcdef01, [], "A"⟩]

/-- A document that holds them; the empty list of parameters is left out. -/
def sharedDocument : List UInt8 :=
  ["\x7b\"constructors\":[\x7b\"id\":\"00000012\",\"predicate\":\"a.b\",\"params\":[",
    "\x7b\"name\":\"f\",\"type\":\"#\"\x7d,",
    "\x7b\"name\":\"x\",\"type\":\"Vector<Vector<int>>\"\x7d],\"type\":\"A\"\x7d],",
    "\"methods\":[\x7b\"id\":\"abcdef01\",\"method\":\"get\",\"type\":\"A\"\x7d]\x7d"].flatMap
      fun part => part.toList.map fun c => UInt8.ofNat c.toNat

/-- A schema with two sections, in both dialects. -/
theorem readListing_iff_readSchema_shared :
    (∀ s ∈ sharedConstructors ++ sharedMethods, s.IsShared) ∧
      (Json.Node.read? sharedDocument).bind Listing.ofNode? =
        some (listingOf sharedConstructors sharedMethods) ∧
      ∃ ds, readListing sharedDocument = .ok ds ∧
        readSchema (textOf sharedConstructors sharedMethods) = .ok ds := by
  have hshared : ∀ s ∈ sharedConstructors ++ sharedMethods, s.IsShared := by decide +kernel
  have hdocument : (Json.Node.read? sharedDocument).bind Listing.ofNode? =
      some (listingOf sharedConstructors sharedMethods) := by decide +kernel
  have htypes : ∀ s ∈ sharedConstructors ++ sharedMethods,
      (TypeExpr.read s.type.toList).isOk := by decide +kernel
  obtain ⟨hsame, hread⟩ := readListing_iff_readSchema hshared hdocument
  obtain ⟨ds, hds⟩ := hread.mpr htypes
  exact ⟨hshared, hdocument, ds, hds, (hsame ds).mp hds⟩

end TypeLang
