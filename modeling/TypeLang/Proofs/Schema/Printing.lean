import TypeLang.Proofs.Schema.OneLine

/-!
# Printing

Definitions are printed with the written form of each on a line of its own, and with a separator
line wherever the category changes. Printing what was read from a schema text, and reading it again,
gives the same definitions: names, ids, parameters with their gates, result types and categories.
Only their sources are different, since they come from the printed text. The text must not have
template definitions, whose type variables are not printed, and each definition must have one
semicolon, since a line that ends with a semicolon ends a definition.
-/
namespace TypeLang

open Text Document

/-- The lines that definitions are printed on, behind a definition of the given category. -/
def printedLines : Category → List Definition → List String
  | _, [] => []
  | category, d :: ds =>
    (if d.category = category then [] else [separatorLine d.category]) ++
      d.text :: printedLines d.category ds

/-- Prints definitions as a schema text. -/
def printSchema (ds : List Definition) : String := unlines (printedLines .types ds)

namespace Definition

/-- The written form of the definition is a line that shows its parts. -/
structure IsPrintable (d : Definition) : Prop extends d.IsLegible where
  unbroken : Unbroken d.text
  uncommented : Uncommented d.text.toList

/-- The definition as it is read from its written form. -/
def restated (d : Definition) : Definition := { d with source := some d.text }

variable {d : Definition}

theorem IsPrintable.isClosedLine (h : d.IsPrintable) : IsClosedLine d.text.toList := by
  have huncommented := h.uncommented
  rw [toList_text] at huncommented ⊢
  exact h.plain.isClosedLine huncommented

theorem IsPrintable.readStatement_text (h : d.IsPrintable) :
    readStatement d.category d.text.toList = .ok d.restated := by
  rw [readStatement, h.read_text]
  simp [Except.map, restated]

end Definition

variable {ds : List Definition}

theorem unbroken_printedLines (h : ∀ d ∈ ds, d.IsPrintable) (category : Category) :
    ∀ line ∈ printedLines category ds, Unbroken line := by
  induction ds generalizing category with
  | nil => simp [printedLines]
  | cons d ds ih =>
    obtain ⟨hd, hds⟩ := List.forall_mem_cons.mp h
    have hseparator : ∀ category, Unbroken (separatorLine category) := by
      intro category
      cases category <;> decide
    rw [printedLines, List.forall_mem_append, List.forall_mem_cons]
    refine ⟨?_, hd.unbroken, ih hds d.category⟩
    split <;> simp [hseparator]

/-- Printed definitions are read again, whatever the lines are numbered from. -/
theorem read_printedLines (h : ∀ d ∈ ds, d.IsPrintable) (category : Category) (n : Nat) :
    (⟨category, none⟩ : State).read
        (statementsFrom n ((printedLines category ds).map String.toList)) =
      ⟨ds.map Definition.restated, none⟩ := by
  induction ds generalizing category n with
  | nil => rfl
  | cons d ds ih =>
    obtain ⟨hd, hds⟩ := List.forall_mem_cons.mp h
    have hline : ∀ n, (⟨d.category, none⟩ : State).read (statementsFrom n
        (d.text.toList :: (printedLines d.category ds).map String.toList)) =
        ⟨(d :: ds).map Definition.restated, none⟩ := fun n =>
      (read_closedLine hd.isClosedLine).mpr
        ⟨d.restated, ds.map Definition.restated, hd.readStatement_text, ih hds _ _, rfl⟩
    rw [printedLines]
    split
    · next hcategory =>
      rw [← hcategory]
      exact hline n
    · rw [List.singleton_append, List.map_cons, read_separatorLine]
      exact hline (n + 1)

/-- Printable definitions are printed as a text that is read as these definitions. -/
theorem readSchema_printSchema_of_printable (h : ∀ d ∈ ds, d.IsPrintable) :
    readSchema (printSchema ds) = .ok (ds.map Definition.restated) := by
  rw [printSchema, readSchema_unlines (unbroken_printedLines h .types)]
  exact read_printedLines h .types 1

/-! ## Definitions of a text -/

namespace Definition

variable {d : Definition} {cs : List Char}

/-- No comment starts in the written form when none starts in the text that was read. -/
theorem uncommented_text_of_read (h : read cs = .ok d) (htemplate : d.template = false)
    (hcs : Uncommented cs) : Uncommented d.text.toList := by
  obtain ⟨left, right, hcut, -, hresult, hname, hparameters⟩ := exists_parts h htemplate
  obtain ⟨-, htokens⟩ := readParameters_text hparameters
  have hbody := hcs.of_isInfix (isInfix_body cs)
  have hleft := hbody.of_isInfix ((isInfix_trim left).trans (isInfix_of_cutWhere? hcut).1)
  have hright := hbody.of_isInfix ((isInfix_trim right).trans (isInfix_of_cutWhere? hcut).2)
  have hhead := isInfix_cutHead (trim left)
  rw [toList_text]
  apply Row.uncommented_text
  · rw [row, QualifiedName.toList_text_of_read? hname]
    exact hleft.of_isInfix ((isInfix_cutId _).trans hhead.1)
  · refine List.forall_mem_map.mpr fun p hp => ?_
    obtain ⟨token, htoken, hread⟩ := htokens p hp
    have hpart := hleft.of_isInfix ((isInfix_of_mem_words htoken).trans hhead.2)
    exact hpart.of_respelled (Parameter.respelled_of_read hread)
  · rwa [row, TypeExpr.toList_text_of_read hresult]

theorem IsUnbroken.text (h : d.IsUnbroken) : Unbroken d.text := by
  rw [unbroken_iff, toList_text]
  exact Row.newline_notMem_text h.name.newline_notMem
    (List.forall_mem_map.mpr fun p hp => (h.parameters p hp).newline_notMem)
    h.result.newline_notMem

end Definition

theorem uncommented_of_mem_statements {cs : List Char} {entry : Nat × List Char}
    (h : entry ∈ statements cs) : Uncommented entry.2 := by
  simp only [statements, List.mem_filter, List.mem_map] at h
  obtain ⟨⟨line, -, rfl⟩, -⟩ := h
  exact (uncommented_stripComment line.1).of_isInfix (isInfix_trim _)

/-- Definitions of a text are printable, unless they are templates or have more semicolons than
one. -/
theorem isPrintable_of_readSchema {text : String} (h : readSchema text = .ok ds) {d : Definition}
    (hd : d ∈ ds) (htemplate : d.template = false) (hcount : d.sourceChars.count ';' = 1) :
    d.IsPrintable := by
  have hunbroken := (unbroken_of_readSchema h d hd).text
  obtain ⟨category, statement, huncommented, hclosed, hstatement⟩ := exists_text
    (fun xs ys hxs hys => Uncommented.append_cons hxs (by decide) hys)
    (fun _ => uncommented_of_mem_statements) h hd
  rw [sourceChars_of_readStatement hstatement] at hcount
  simp only [readStatement, map_eq_ok] at hstatement
  obtain ⟨read, hread, rfl⟩ := hstatement
  have hlegible := Definition.isLegible_of_read hread htemplate hclosed hcount
  have htext := Definition.uncommented_text_of_read hread htemplate huncommented
  -- Neither the category nor the source is part of the written form.
  exact { hlegible with unbroken := hunbroken, uncommented := htext }

/-- Printing undoes reading. -/
theorem readSchema_printSchema {text : String} (h : readSchema text = .ok ds)
    (htemplates : ∀ d ∈ ds, d.template = false)
    (hsemicolons : ∀ d ∈ ds, d.sourceChars.count ';' = 1) :
    readSchema (printSchema ds) = .ok (ds.map Definition.restated) :=
  readSchema_printSchema_of_printable fun d hd =>
    isPrintable_of_readSchema h hd (htemplates d hd) (hsemicolons d hd)

/-- A definition over two lines, one without an id, and gates that are spelled with a zero and with
a plus sign. -/
def spreadText : String :=
  "// users\nauth.user#5 flags:# name:flags.03?Vector<Vector<string>>\n  age:int = auth.User;\n" ++
    "---functions---\nping x:# y:x.+1?int = Pong; // derived\n---types---\nleaf#F = Leaf;"

/-- A schema spread over lines, with a derived id, printed and read again. -/
theorem readSchema_printSchema_spread :
    ∃ ds, readSchema spreadText = .ok ds ∧ (∀ d ∈ ds, d.template = false) ∧
      (∀ d ∈ ds, d.sourceChars.count ';' = 1) ∧
      printSchema ds =
        "auth.user#00000005 flags:# name:flags.3?Vector<Vector<string>> age:int = auth.User;\n" ++
          "---functions---\nping#df50971b x:# y:x.1?int = Pong;\n" ++
          "---types---\nleaf#0000000f = Leaf;\n" ∧
      readSchema (printSchema ds) = .ok (ds.map Definition.restated) := by
  have hrun : (readSchema spreadText).isOk ∧
      (∀ d ∈ definitionsOf spreadText, d.template = false) ∧
      (∀ d ∈ definitionsOf spreadText, d.sourceChars.count ';' = 1) ∧
      printSchema (definitionsOf spreadText) =
        "auth.user#00000005 flags:# name:flags.3?Vector<Vector<string>> age:int = auth.User;\n" ++
          "---functions---\nping#df50971b x:# y:x.1?int = Pong;\n" ++
          "---types---\nleaf#0000000f = Leaf;\n" := by
    decide +kernel
  have hread := readSchema_eq_ok_definitionsOf hrun.1
  exact ⟨_, hread, hrun.2.1, hrun.2.2.1, hrun.2.2.2,
    readSchema_printSchema hread hrun.2.1 hrun.2.2.1⟩

end TypeLang
