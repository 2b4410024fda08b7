import TypeLang.Proofs.Emit.Operators
import TypeLang.Proofs.Emit.Punctuated
import TypeLang.Proofs.Text.Numerals

/-!
# Constants

The values of the tag constants, read off the lines that define them. Every tag of a model has one
defining line, with the id of the first entry of that tag: entries of one tag share a constant, and
the first of them stands.
-/
namespace TypeLang

open Text

namespace Emit

/-! ## Values -/

/-- The value that a line gives to a constant; the lines stand in the scope of all tags. -/
def valueIn? (constant line : String) : Option UInt32 :=
  (dropStart? (constant ++ " = 0x").toList (tagConstant line).toList).bind fun cs =>
    (dropLast? ',' cs).bind fun digits =>
      (readDigits 16 maxWord 0 digits).toOption.map UInt32.ofNat

/-- The values of a constant, one from each line that defines it. -/
def valuesIn (constant : String) (lines : List String) : List UInt32 :=
  lines.filterMap (valueIn? constant)

/-- Only lines that end with a comma define a constant. -/
theorem valueIn?_eq_none {constant line : String}
    (h : (tagConstant line).toList.getLast? ≠ some ',') : valueIn? constant line = none := by
  rw [valueIn?]
  cases hstart : dropStart? (constant ++ " = 0x").toList (tagConstant line).toList with
  | none => rfl
  | some cs =>
    cases hlast : dropLast? ',' cs with
    | none => simp [hlast]
    | some digits =>
      rw [← append_of_dropStart? hstart, append_of_dropLast? hlast, ← List.append_assoc,
        List.getLast?_concat] at h
      exact absurd rfl h

/-- The line that defines a tag defines no other constant. -/
theorem valueIn?_line (constant tag : String) (id : UInt32) :
    valueIn? constant (tag ++ " = " ++ hexConstant id ++ ",") =
      if tagConstant tag = constant then some id else none := by
  have hline : (tagConstant (tag ++ " = " ++ hexConstant id ++ ",")).toList =
      (tagConstant tag ++ " = 0x").toList ++ (hexDigits 8 id.toNat ++ [',']) := by
    simp [tagConstant, hexConstant, hexWord, String.toList_append]
  have hread : readDigits 16 maxWord 0 (hexDigits 8 id.toNat) = .ok id.toNat :=
    readDigits_hexDigits id.toNat_lt (Nat.le_of_lt_succ id.toNat_lt)
  split
  · next heq =>
    subst heq
    rw [valueIn?, hline, dropStart?_append, Option.bind_some, dropLast?_concat, Option.bind_some,
      hread]
    simp [Except.toOption]
  · next hne =>
    refine Option.eq_none_iff_forall_ne_some.mpr fun value hvalue => hne ?_
    simp only [valueIn?, hline, Option.bind_eq_some_iff, Option.map_eq_some_iff] at hvalue
    obtain ⟨cs, hstart, digits, hlast, n, hn, -⟩ := hvalue
    have hdigits : readDigits 16 maxWord 0 digits = .ok n := by
      cases hr : readDigits 16 maxWord 0 digits with
      | error e => simp [hr, Except.toOption] at hn
      | ok k => simpa [hr, Except.toOption] using hn
    have hnot : ∀ {cs : List Char} {k : Nat}, readDigits 16 maxWord 0 cs = .ok k → 'x' ∉ cs :=
      fun h hmem => digitValue?_of_readDigits h 'x' hmem (by decide)
    have happend := append_of_dropStart? hstart
    rw [append_of_dropLast? hlast, ← List.append_assoc, ← List.append_assoc,
      List.append_cancel_right_eq, String.toList_append, String.toList_append] at happend
    have hmarks : (constant.toList ++ " = 0".toList) ++ 'x' :: digits =
        ((tagConstant tag).toList ++ " = 0".toList) ++ 'x' :: hexDigits 8 id.toNat := by
      simpa using happend
    obtain ⟨hfront, -⟩ := append_mark_inj hmarks (hnot hdigits) (hnot hread)
    rw [List.append_cancel_right_eq] at hfront
    exact (String.toList_inj.mp hfront).symm

/-! ## Sections of constants -/

/-- What is looked for in lines that are not blank is found in one block after the other. -/
theorem filterMap_statements_blocks {β : Type} {f : String → Option β} (hf : f "" = none)
    (bs : List Code) : (Code.blocks bs).statements.filterMap f =
      bs.flatMap fun b => b.statements.filterMap f := by
  have hintercalate : ∀ bs : List Code, (Code.statements ([.blank].intercalate bs)).filterMap f =
      bs.flatMap fun b => b.statements.filterMap f := by
    intro bs
    induction bs with
    | nil => simp [List.intercalate]
    | cons b bs ih =>
      cases bs with
      | nil => simp [List.intercalate]
      | cons c bs =>
        have hblank : (Code.statements [.blank]).filterMap f = [] := by
          simp [Code.statements, CodeLine.statement, hf]
        rw [List.intercalate_cons_cons, Code.statements_append, Code.statements_append,
          List.filterMap_append, List.filterMap_append, hblank, ih, List.append_nil]
        rfl
  rw [Code.blocks, hintercalate]
  induction bs with
  | nil => rfl
  | cons b bs ih =>
    cases b with
    | nil => simpa using ih
    | cons line b => simpa using ih

/-- The blocks hold the first entry of each tag. -/
theorem flatten_valueBlocks (seen : List String) (groups : List Group) :
    (valueBlocks seen groups).flatten =
      distinctFrom (·.tag) seen (groups.flatMap (·.entries)) := by
  induction groups generalizing seen with
  | nil => rfl
  | cons group rest ih =>
    rw [List.flatMap_cons, distinctFrom_append, ← ih, valueBlocks]
    split
    · next hempty => rw [List.isEmpty_iff.mp hempty, List.nil_append]
    · rfl

/-- The lines of an entry define its tag, whatever its source says. -/
theorem valuesIn_valueCode (constant : String) (sources : Bool) {entry : GroupEntry}
    (h : ∀ source ∈ entry.source, source.toList.getLast? = some ';') :
    (valueCode sources entry).statements.filterMap (valueIn? constant) =
      (if tagConstant entry.tag = constant then some entry.id else none).toList := by
  have hsource : (Code.source sources entry.source).statements.filterMap (valueIn? constant) =
      [] := by
    refine List.filterMap_eq_nil_iff.mpr fun line hline => valueIn?_eq_none ?_
    obtain ⟨source, hsource, rfl⟩ := Code.mem_statements_source hline
    rw [tagConstant, String.toList_append, String.toList_append, List.getLast?_append,
      List.getLast?_append, h source hsource]
    decide
  rw [valueCode, Code.statements_append, List.filterMap_append, hsource, List.nil_append,
    Code.statements_line, ← valueIn?_line]
  cases hline : valueIn? constant (entry.tag ++ " = " ++ hexConstant entry.id ++ ",") with
  | none => exact List.filterMap_cons_none hline
  | some value => exact List.filterMap_cons_some hline

/-- Constants are told apart by their tags. -/
theorem tagConstant_inj {a b : String} : tagConstant a = tagConstant b ↔ a = b := by
  simp [tagConstant, ← String.toList_inj, String.toList_append]

/-- The value of a constant is the id of the first entry of its tag. -/
theorem valuesIn_valuesCode (tag : String) (sources : Bool) {m : Model}
    (h : ∀ group ∈ m.groups, ∀ entry ∈ group.entries, ∀ source ∈ entry.source,
      source.toList.getLast? = some ';') :
    valuesIn (tagConstant tag) (valuesCode sources m).statements =
      (((m.groups.flatMap (·.entries)).find? (·.tag == tag)).map (·.id)).toList := by
  have hblank : valueIn? (tagConstant tag) "" = none := valueIn?_eq_none (by decide)
  have hentries : ∀ entry ∈ (valueBlocks [] m.groups).flatten,
      (valueCode sources entry).statements.filterMap (valueIn? (tagConstant tag)) =
        (if entry.tag = tag then some entry.id else none).toList := by
    intro entry hentry
    obtain ⟨block, hblock, hmem⟩ := List.mem_flatten.mp hentry
    obtain ⟨group, hgroup, hmem⟩ := mem_valueBlocks hblock hmem
    rw [valuesIn_valueCode _ _ (h group hgroup entry hmem)]
    simp only [tagConstant_inj]
  have hflatten : (valueBlocks [] m.groups).flatten =
      distinctBy (·.tag) (m.groups.flatMap (·.entries)) := flatten_valueBlocks [] _
  calc valuesIn (tagConstant tag) (valuesCode sources m).statements
    _ = (valueBlocks [] m.groups).flatMap fun block => block.flatMap fun entry =>
          (valueCode sources entry).statements.filterMap (valueIn? (tagConstant tag)) := by
      rw [valuesIn, valuesCode, filterMap_statements_blocks hblank, List.flatMap_map]
      simp only [Code.statements_flatMap, List.filterMap_flatMap]
    _ = (valueBlocks [] m.groups).flatten.flatMap fun entry =>
          (if entry.tag = tag then some entry.id else none).toList := by
      rw [← List.flatMap_congr hentries, List.flatten_eq_flatMap, List.flatMap_assoc]
      rfl
    _ = (distinctBy (·.tag) (m.groups.flatMap (·.entries))).filterMap fun entry =>
          if entry.tag = tag then some entry.id else none := by
      rw [hflatten, List.filterMap_eq_flatMap_toList]
    _ = _ := by
      rw [filterMap_eq_find? nodup_map_distinctBy, find?_distinctBy fun a b hab => by rw [hab]]

/-- The section of constants has no indented lines. -/
theorem text_valuesCode (sources : Bool) (m : Model) : (valuesCode sources m).text =
    String.join ((valuesCode sources m).statements.map (· ++ "\n")) := by
  have hlines : ∀ line ∈ valuesCode sources m, line.text = line.statement ++ "\n" := by
    have hflat : ∀ text, (CodeLine.code 0 text).text = text ++ "\n" := fun text => by
      rw [CodeLine.text, List.replicate_zero, String.join_nil, String.empty_append]
    intro line hline
    rcases Code.mem_blocks hline with rfl | ⟨block, hblock, hline⟩
    · rfl
    · obtain ⟨entries, -, rfl⟩ := List.mem_map.mp hblock
      obtain ⟨entry, -, hline⟩ := List.mem_flatMap.mp hline
      rcases List.mem_append.mp hline with hline | hline
      · simp only [Code.source] at hline
        split at hline
        · obtain ⟨source, -, hline⟩ := List.mem_flatMap.mp hline
          rw [List.mem_singleton.mp hline]
          exact hflat _
        · cases hline
      · rw [List.mem_singleton.mp hline]
        exact hflat _
  rw [Code.text, Code.statements, List.map_map, List.map_congr_left hlines]
  rfl

/-- What a line of punctuated code says is on one line of text. -/
theorem newline_notMem_of_mem_statements {code : Code} (h : code.IsPunctuated) {line : String}
    (hline : line ∈ code.statements) : '\n' ∉ line.toList := by
  obtain ⟨line, hmem, rfl⟩ := List.mem_map.mp hline
  cases line with
  | blank => simp [CodeLine.statement]
  | code depth text => exact (h depth text hmem).unbroken.newline_notMem

/-! ## Labels -/

/-- The case labels in a piece of code. -/
def labels (code : Code) : List String := code.statements.filter fun line => decide (IsLabel line)

theorem mem_labels {code : Code} {line : String} :
    line ∈ labels code ↔ line ∈ code.statements ∧ IsLabel line := by
  simp [labels]

/-- Labelled cases bring their labels, and no other. -/
theorem HasCases.exists_of_isLabel {cases : List (String × List String)} {lines : List String}
    {line : String} (h : HasCases cases lines)
    (hcases : ∀ entry ∈ cases, ∀ line ∈ entry.2, ¬IsLabel line) (hline : line ∈ lines)
    (hlabel : IsLabel line) : ∃ entry ∈ cases, line = entry.1 := by
  obtain ⟨front, back, hfront, hback, rfl⟩ := h
  rcases List.mem_append.mp hline with hline | hline
  · exact absurd hlabel (hfront line hline)
  rcases List.mem_append.mp hline with hline | hline
  · obtain ⟨entry, hentry, hline⟩ := List.mem_flatMap.mp hline
    rcases List.mem_cons.mp hline with rfl | hline
    · exact ⟨entry, hentry, rfl⟩
    · rcases List.mem_append.mp hline with hline | hline
      · exact absurd hlabel (hcases entry hentry line hline)
      · rw [List.mem_singleton.mp hline] at hlabel
        exact absurd hlabel (by decide)
  · exact absurd hlabel (hback line hline)

/-- The predicates of a type have one label for each constructor. -/
theorem labels_predicateCode (t : TaggedType) :
    labels (predicateCode t) = t.constructors.map fun c => caseLabel c.tag := by
  have hlabels : (t.constructors.map fun c => caseLabel c.tag).filter
      (fun line => decide (IsLabel line)) = t.constructors.map fun c => caseLabel c.tag := by
    refine List.filter_eq_self.mpr fun label hlabel => ?_
    obtain ⟨c, -, rfl⟩ := List.mem_map.mp hlabel
    exact decide_eq_true (isLabel_caseLabel _)
  have hlines : (predicateCode t).statements =
      ["bool isValid() const \x7b return hasType(tlType); \x7d",
        "static bool hasType(const quint32 value) \x7b", "switch (value) \x7b"] ++
      ((t.constructors.map fun c => caseLabel c.tag) ++
        ["return true;", "default:", "return false;", "\x7d", "\x7d"]) := by
    simp [predicateCode, Code.braced, Code.switch, Code.arm, List.map_eq_flatMap]
  have hopening : ["bool isValid() const \x7b return hasType(tlType); \x7d",
      "static bool hasType(const quint32 value) \x7b", "switch (value) \x7b"].filter
        (fun line => decide (IsLabel line)) = [] := by
    decide
  have hclosing : ["return true;", "default:", "return false;", "\x7d", "\x7d"].filter
      (fun line => decide (IsLabel line)) = [] := by
    decide
  rw [labels, hlines, List.filter_append, List.filter_append, hlabels, hopening, hclosing,
    List.nil_append, List.append_nil]

/-- Every label of an operator is that of a constructor of the type. -/
theorem exists_of_mem_labels_streamDefinition {d : Direction} {t : TaggedType} {label : String}
    (h : label ∈ labels (streamDefinition d t)) :
    ∃ c ∈ t.constructors, label = caseLabel c.tag := by
  obtain ⟨hline, hlabel⟩ := mem_labels.mp h
  obtain ⟨entry, hentry, rfl⟩ := (hasCases_streamDefinition d t).exists_of_isLabel
    (fun entry he line hline => ((operatorCases_labels d t entry he).2 line hline).1) hline hlabel
  simp only [operatorCases, transferCases, List.mem_map, List.mem_filter] at hentry
  obtain ⟨-, ⟨⟨c, hc, rfl⟩, -⟩, rfl⟩ := hentry
  exact ⟨c, hc, rfl⟩

theorem not_isLabel_of_mem_printField {f : Field} {line : String}
    (h : line ∈ (printField f).statements) : ¬IsLabel line := by
  have hprint : ∀ expression, ¬IsLabel (printLine f.name expression) := by
    simp [IsLabel, printLine, String.toList_append]
  rw [printField] at h
  split at h
  · rw [List.mem_singleton.mp h]
    exact hprint _
  · cases hgate : f.gate with
    | none =>
      rw [hgate] at h
      rw [List.mem_singleton.mp h]
      exact hprint _
    | some g =>
      simp only [hgate, Code.gated, Code.braced, Code.statements_append, Code.statements_line,
        Code.statements_nest, List.cons_append, List.nil_append, List.mem_cons, List.not_mem_nil,
        or_false] at h
      rcases h with rfl | rfl | rfl
      · simp [IsLabel, String.toList_append]
      · exact hprint _
      · decide

/-- The labelled cases of the operator that prints, each with its statements. -/
def printerCases (t : TaggedType) : List (String × List String) :=
  (t.constructors.filter fun c => !c.fields.isEmpty).map fun c =>
    (caseLabel c.tag, Code.statements (c.fields.flatMap printField))

/-- A printer has a case for each constructor. -/
theorem hasCases_printerDefinition (t : TaggedType) :
    HasCases (printerCases t) (printerDefinition t).statements := by
  have hswitch := hasCases_tagSwitch "type.tlType"
    ((t.constructors.filter fun c => !c.fields.isEmpty).map fun c =>
      (c.tag, c.fields.flatMap printField))
  rw [List.map_map] at hswitch
  simp only [printerDefinition, Code.function, Code.statements_append, Code.statements_nest,
    Code.statements_line, Code.statements_blank]
  refine (((((HasCases.append_left ?_ hswitch).append_right ?_).append_right ?_).append_right
    ?_).append_left ?_).append_right ?_
  all_goals simp [IsLabel, String.toList_append]

/-- Every label of a printer is that of a constructor of the type. -/
theorem exists_of_mem_labels_printerDefinition {t : TaggedType} {label : String}
    (h : label ∈ labels (printerDefinition t)) : ∃ c ∈ t.constructors, label = caseLabel c.tag := by
  obtain ⟨hline, hlabel⟩ := mem_labels.mp h
  have hbodies : ∀ entry ∈ printerCases t, ∀ line ∈ entry.2, ¬IsLabel line := by
    intro entry hentry line hline
    obtain ⟨c, -, rfl⟩ := List.mem_map.mp hentry
    simp only [Code.statements_flatMap, List.mem_flatMap] at hline
    obtain ⟨f, -, hline⟩ := hline
    exact not_isLabel_of_mem_printField hline
  obtain ⟨entry, hentry, rfl⟩ :=
    (hasCases_printerDefinition t).exists_of_isLabel hbodies hline hlabel
  obtain ⟨c, hc, rfl⟩ := List.mem_map.mp hentry
  exact ⟨c, List.mem_of_mem_filter hc, rfl⟩

/-- Every label of an accessor is that of a constructor of the type. -/
theorem exists_of_mem_labels_accessor {t : TaggedType} {a : Accessor} (ha : a ∈ t.accessors)
    {label : String} (h : label ∈ labels a.code) :
    ∃ c ∈ t.constructors, label = caseLabel c.tag := by
  obtain ⟨hline, hlabel⟩ := mem_labels.mp h
  have htags : ∀ entry ∈ a.gates, ∃ c ∈ t.constructors, entry.1 = c.tag := by
    obtain ⟨name, -, rfl⟩ := List.mem_map.mp ha
    intro entry hentry
    obtain ⟨mark, hmark, rfl⟩ := List.mem_map.mp hentry
    obtain ⟨c, hc, -, -, -, -, -, htag⟩ := mem_marks.mp (List.mem_of_mem_filter hmark)
    exact ⟨c, hc, htag⟩
  cases hbody : a.body with
  | always gate =>
    simp only [Accessor.code, hbody, Code.statements_line, List.mem_singleton] at hline
    subst hline
    simp [IsLabel, String.toList_append] at hlabel
  | byTag gates =>
    have hgates : gates = a.gates := by
      simp only [Accessor.body] at hbody
      split at hbody
      · next hempty => rw [hempty]; cases hbody; rfl
      · split at hbody
        · cases hbody
        · cases hbody; rfl
    simp only [Accessor.code, hbody, hgates, Code.braced, Code.switch, Code.arm,
      Code.statements_append, Code.statements_line, Code.statements_nest, Code.statements_flatMap,
      List.mem_append, List.mem_singleton, List.mem_flatMap] at hline
    obtain ⟨entry, hentry, rfl⟩ : ∃ entry ∈ a.gates, label = caseLabel entry.1 := by
      rcases hline with (rfl | ((rfl | ⟨entry, hentry, rfl | rfl⟩) | rfl | rfl) | rfl) | rfl
      case inl.inr.inl.inl.inr.inl => exact ⟨entry, hentry, rfl⟩
      all_goals simp [IsLabel, String.toList_append] at hlabel
    obtain ⟨c, hc, htag⟩ := htags entry hentry
    exact ⟨c, hc, by rw [htag]⟩

end Emit

/-! ## Uses -/

/-- The code of a type goes by the constants of its constructors: the predicate of the struct lists
them, no other constant labels a case, and behind the constant of a constructor the operators stream
its fields. -/
structure TaggedType.GoesByTags (t : TaggedType) : Prop where
  accepted : Emit.labels (Emit.predicateCode t) = t.constructors.map fun c => Emit.caseLabel c.tag
  labels : ∀ code ∈ Emit.printerDefinition t :: t.accessors.map Accessor.code ++
      [Emit.streamDefinition .read t, Emit.streamDefinition .write t],
    ∀ label ∈ Emit.labels code, ∃ c ∈ t.constructors, label = Emit.caseLabel c.tag
  streams : ∀ d, ∀ c ∈ t.constructors, ∀ words, Emit.operatorStreams d t c words =
    (Transfer.ofFields c.fields).filter (·.runs words)

/-- The code of a method goes by its constant: the request streams it first, and the cases of the
result, of updates and of the dump are labelled with it. -/
structure Method.GoesByTag (config : Config) (method : Method) : Prop where
  streams : ∀ words, Emit.requestStreams config.sources config.sender method words =
    ⟨none, Emit.tagConstant method.tag⟩ ::
      (Transfer.ofFields method.fields).filter (·.runs words)
  result : Emit.labels (Emit.resultCase method) = [Emit.caseLabel method.tag]
  updates : Emit.labels (Emit.updatesCase method) = [Emit.caseLabel method.tag]
  dump : (Emit.dumpCase method).statements.head? = some (Emit.caseLabel method.tag ++ " \x7b")

/-- All code of a type goes by the tags of its constructors. -/
theorem TaggedType.goesByTags {t : TaggedType} (h : (t.constructors.map Constructor.tag).Nodup) :
    t.GoesByTags where
  accepted := Emit.labels_predicateCode t
  labels := by
    intro code hcode label hlabel
    simp only [List.mem_append, List.mem_cons, List.mem_map, List.not_mem_nil, or_false] at hcode
    obtain (rfl | ⟨a, ha, rfl⟩) | rfl | rfl := hcode
    · exact Emit.exists_of_mem_labels_printerDefinition hlabel
    · exact Emit.exists_of_mem_labels_accessor ha hlabel
    · exact Emit.exists_of_mem_labels_streamDefinition hlabel
    · exact Emit.exists_of_mem_labels_streamDefinition hlabel
  streams := fun d c hc words => Emit.operatorStreams_eq hc h words

/-- All code of a method goes by its tag. -/
theorem Method.goesByTag (config : Config) (method : Method) : method.GoesByTag config where
  streams := Emit.requestStreams_eq config.sources config.sender method
  result := by
    have hcall : ¬Emit.IsLabel (Naming.handler method.name ++ "(context);") := by
      simp [Emit.IsLabel, String.toList_append]
    have hbreak : ¬Emit.IsLabel "break;" := by decide
    simp [Emit.labels, Emit.resultCase, Code.arm, hcall, hbreak, Emit.isLabel_caseLabel]
  updates := List.filter_cons_of_pos (decide_eq_true (Emit.isLabel_caseLabel method.tag))
  dump := rfl

end TypeLang
