import Mathlib.Data.List.Nodup
import TypeLang.Proofs.Emit.Functions
import TypeLang.Proofs.Emit.Lines

/-!
# Handlers in their region

Handlers that are written into a region are the functions that a scan of the region finds: those
that were there keep their bodies, the others are stubs. So writing them again, for the same
methods, changes nothing.
-/
namespace TypeLang

open Text

namespace Emit

variable {indent old : List Char} {method other : Method} {methods : List Method}

/-! ## Signatures -/

theorem handlerSignature_toList (method : Method) : (handlerSignature method).toList =
    "void CTelegramConnection::".toList ++
      ((Naming.handler method.name).toList ++ handlerArguments.toList) := by
  unfold handlerSignature
  rw [String.toList_append, String.toList_append, List.append_assoc]

/-- Methods with one handler signature have one tag. -/
theorem tag_of_handlerSignature (h : handlerSignature method = handlerSignature other) :
    method.tag = other.tag := by
  have hchars := congrArg String.toList h
  rw [handlerSignature_toList, handlerSignature_toList, List.append_cancel_left_eq,
    List.append_cancel_right_eq, Naming.handler, Naming.handler, String.toList_append,
    String.toList_append, List.append_cancel_left_eq] at hchars
  exact String.toList_inj.mp hchars

/-- The signature of a handler reads as a signature. -/
theorem isSignature_handlerSignature (method : Method) :
    FunctionText.isSignature (handlerSignature method).toList := by
  rw [handlerSignature_toList]
  generalize (Naming.handler method.name).toList ++ handlerArguments.toList = rest
  have hclass : "void CTelegramConnection::".toList =
      'v' :: "oid CTelegramConnection::".toList := by decide
  have hblank : isBlank 'v' = false := by decide
  simp [hclass, FunctionText.isSignature, hblank, List.isPrefixOf]

theorem ne_handlerSignature {cs : List Char} (h : FunctionText.isSignature cs = false)
    (method : Method) : cs ≠ (handlerSignature method).toList := by
  rintro rfl
  rw [isSignature_handlerSignature] at h
  cases h

theorem getLast?_handlerSignature (method : Method) :
    (handlerSignature method).toList.getLast? = some ')' := by
  have harguments : handlerArguments.toList.getLast? = some ')' := by decide
  rw [handlerSignature_toList, List.getLast?_append, List.getLast?_append, harguments]
  rfl

theorem trimEnd_handlerSignature (method : Method) :
    trimEnd (handlerSignature method).toList = (handlerSignature method).toList :=
  trimEnd_of_getLast? (getLast?_handlerSignature method) (by decide)

/-! ## Stubs -/

/-- What a line of code says at the indentation it is written at. -/
theorem lineAt?_indentLine {depth : Nat} {text : String} (h : Punctuated text) :
    FunctionText.lineAt? indent (indentLine indent (CodeLine.code depth text).text.toList) =
      some (Code.margin depth ++ text.toList) := by
  have hlast := h.last
  cases hc : text.toList.getLast? with
  | none => simp [hc] at hlast
  | some c =>
    simp only [hc, Option.any_some, decide_eq_true_eq] at hlast
    have hblank := isBlank_of_mem_punctuation c hlast
    have hline : (Code.margin depth ++ text.toList).getLast? = some c := by
      simp [List.getLast?_append, hc]
    have hstated : trim (Code.margin depth ++ text.toList) ≠ [] := by
      intro hnil
      have := getLast?_trim hline hblank
      simp [hnil] at this
    rw [Code.toList_text_code, ← List.append_assoc, indentLine_of_not_blank,
      FunctionText.lineAt?_append, trimEnd_append_newline, trimEnd_of_getLast? hline hblank]
    rwa [trim_append_newline]

/-- A function that nobody has written yet. -/
def stubFunction (indent : List Char) (method : Method) : FunctionText :=
  ⟨(handlerSignature method).toList, indentBlock indent (handlerStub method).text.toList⟩

theorem body_stubFunction (indent : List Char) (method : Method) :
    (stubFunction indent method).body = indentBlock indent (handlerStub method).text.toList := by
  rw [stubFunction]

theorem of_mem_stub (h : Unbroken method.result.base) (hindent : ∀ c ∈ indent, isBlank c)
    (hbreak : '\n' ∉ indent) :
    ∀ l ∈ inclusiveLines (stubFunction indent method).body, IsLine l ∧ IsCodeLine l := by
  rw [body_stubFunction]
  exact Code.of_mem_indentBlock (punctuated_handlerStub h) hindent hbreak

/-- The lines of a stub are those of its code, indented. -/
theorem inclusiveLines_stub (h : Unbroken method.result.base) (hbreak : '\n' ∉ indent) :
    inclusiveLines (stubFunction indent method).body =
      (handlerStub method).map fun line => indentLine indent line.text.toList := by
  have hcode := punctuated_handlerStub h
  rw [body_stubFunction, inclusiveLines_indentBlock hbreak, Code.inclusiveLines_text hcode,
    List.map_map]
  · rfl
  · rw [Code.inclusiveLines_text hcode]
    simp only [List.forall_mem_map]
    exact fun line hline => (Code.isLine_of_mem hcode hline).1

theorem exists_handlerStub_eq (method : Method) : ∃ warning result reading,
    handlerStub method = [.code 0 "\x7b", .code 1 warning, .code 1 result, .code 1 reading,
      .code 0 "\x7d"] := ⟨_, _, _, rfl⟩

/-- Only the first and the last line of a stub stand at the indentation itself. -/
theorem exists_lineAt?_stub (h : Unbroken method.result.base) (hbreak : '\n' ∉ indent) :
    ∃ warning result reading,
      (inclusiveLines (stubFunction indent method).body).map (FunctionText.lineAt? indent) =
        [some ['\x7b'], some (' ' :: warning), some (' ' :: result), some (' ' :: reading),
          some ['\x7d']] := by
  obtain ⟨warning, result, reading, hstub⟩ := exists_handlerStub_eq method
  have hlineAt : ∀ depth text, .code depth text ∈ handlerStub method →
      FunctionText.lineAt? indent (indentLine indent (CodeLine.code depth text).text.toList) =
        some (Code.margin depth ++ text.toList) :=
    fun depth text hmem => lineAt?_indentLine (punctuated_handlerStub h depth text hmem)
  rw [hstub] at hlineAt
  have hmargin : Code.margin 1 = ' ' :: "   ".toList := by decide
  refine ⟨"   ".toList ++ warning.toList, "   ".toList ++ result.toList,
    "   ".toList ++ reading.toList, ?_⟩
  rw [inclusiveLines_stub h hbreak, hstub]
  simp only [List.map_cons, List.map_nil]
  rw [hlineAt 0 "\x7b" (by simp), hlineAt 1 warning (by simp), hlineAt 1 result (by simp),
    hlineAt 1 reading (by simp), hlineAt 0 "\x7d" (by simp), hmargin]
  rfl

/-- A stub is a whole function. -/
theorem isWhole_stub (h : method.IsUnbroken) (hindent : ∀ c ∈ indent, isBlank c)
    (hbreak : '\n' ∉ indent) : (stubFunction indent method).IsWhole indent := by
  obtain ⟨warning, result, reading, hstub⟩ := exists_lineAt?_stub h.result hbreak
  simp only [List.map_eq_cons_iff, List.map_eq_nil_iff] at hstub
  obtain ⟨opening, _, hbody, hopen, _, _, rfl, hwarning, _, _, rfl, hresult, _, _, rfl, hreading,
    closing, _, rfl, hclose, rfl⟩ := hstub
  refine ⟨isSignature_handlerSignature method, trimEnd_handlerSignature method,
    (unbroken_handlerSignature h.name).newline_notMem,
    fun l hl => (of_mem_stub h.result hindent hbreak l hl).1, [opening, _, _, _], closing, hbody,
    hopen, ?_, hclose⟩
  simp [hopen, hwarning, hresult, hreading]

/-! ## The region of the handlers -/

/-- The handlers of methods, over what the region holds. -/
def handlerFunctions (indent old : List Char) (methods : List Method) : List FunctionText :=
  methods.map (handlerFunction (FunctionText.ofText indent old) indent)

/-- What is written into the region. -/
def handlerText (indent old : List Char) (methods : List Method) : List Char :=
  joinWith ['\n'] ((handlerFunctions indent old methods).map fun f => f.text indent)

theorem handlerDefinitions_eq (indent old : List Char) (methods : List Method) :
    handlerDefinitions (some (String.ofList old)) (String.ofList indent) methods =
      String.ofList (handlerText indent old methods) := by
  simp [handlerDefinitions, handlerText, handlerFunctions]

theorem signature_handlerFunction (existing : List FunctionText) (indent : List Char)
    (method : Method) :
    (handlerFunction existing indent method).signature = (handlerSignature method).toList := by
  simp only [handlerFunction]
  cases hfind : existing.find? (·.signature == (handlerSignature method).toList) with
  | none => rfl
  | some f =>
    have hfound := List.find?_some hfind
    exact eq_of_beq hfound

/-- A handler is a stub or one that is there. -/
theorem handlerFunction_eq_or_mem (existing : List FunctionText) (indent : List Char)
    (method : Method) : handlerFunction existing indent method = stubFunction indent method ∨
      handlerFunction existing indent method ∈ existing := by
  simp only [handlerFunction]
  cases hfind : existing.find? (·.signature == (handlerSignature method).toList) with
  | none => exact .inl rfl
  | some f => exact .inr (List.mem_of_find?_eq_some hfind)

section Region

variable (hmethods : ∀ method ∈ methods, method.IsUnbroken) (hindent : ∀ c ∈ indent, isBlank c)
  (hbreak : '\n' ∉ indent) (hold : ∀ l ∈ inclusiveLines old, IsLine l)
  (hclosed : ∀ f ∈ FunctionText.ofText indent old, f.IsClosed indent)
include hmethods hindent hbreak hold hclosed

/-- Every handler that is written is a whole function. -/
theorem isWhole_handlerFunctions :
    ∀ f ∈ handlerFunctions indent old methods, f.IsWhole indent := by
  simp only [handlerFunctions, List.forall_mem_map]
  intro method hmethod
  rcases handlerFunction_eq_or_mem (FunctionText.ofText indent old) indent method with heq | hmem
  · rw [heq]
    exact isWhole_stub (hmethods method hmethod) hindent hbreak
  · exact (FunctionText.of_mem_ofText hold hmem (hclosed _ hmem)).1

/-- A scan of what was written finds the handlers. -/
theorem ofText_handlerText :
    FunctionText.ofText indent (handlerText indent old methods) =
      handlerFunctions indent old methods :=
  FunctionText.ofText_joined hbreak
    (isWhole_handlerFunctions hmethods hindent hbreak hold hclosed)

/-- The lines that are written were there or are lines of code. -/
theorem of_mem_handlerText : ∀ l ∈ inclusiveLines (handlerText indent old methods),
    IsLine l ∧ (l ∈ inclusiveLines old ∨ IsCodeLine l) := by
  have hwhole := isWhole_handlerFunctions hmethods hindent hbreak hold hclosed
  intro l hl
  rw [handlerText, FunctionText.inclusiveLines_joined hbreak (fun f hf => (hwhole f hf).unbroken)
    fun f hf => (hwhole f hf).isLine] at hl
  rcases FunctionText.mem_joinedLines hl with rfl | ⟨f, hf, hl⟩
  · exact ⟨⟨[], by simp, rfl⟩, .inr isCodeLine_newline⟩
  · obtain ⟨method, hmethod, rfl⟩ := List.mem_map.mp hf
    rcases hl with rfl | hl
    · refine ⟨FunctionText.isLine_opening hbreak (hwhole _ hf).unbroken, .inr ?_⟩
      have hsignature : Punctuated (handlerSignature method) := by
        refine ⟨unbroken_handlerSignature (hmethods method hmethod).name, ?_⟩
        rw [getLast?_handlerSignature]
        decide
      rw [FunctionText.opening, signature_handlerFunction, List.append_assoc]
      exact isCodeLine_of_punctuated hsignature hindent
    · refine ⟨(hwhole _ hf).isLine l hl, ?_⟩
      rcases handlerFunction_eq_or_mem (FunctionText.ofText indent old) indent method with
        heq | hmem
      · rw [heq] at hl
        exact .inr (of_mem_stub (hmethods method hmethod).result hindent hbreak l hl).2
      · exact .inl ((FunctionText.of_mem_ofText hold hmem (hclosed _ hmem)).2.1 l hl)

theorem closeLine_handlerText :
    closeLine (handlerText indent old methods) = handlerText indent old methods := by
  have hlines := of_mem_handlerText hmethods hindent hbreak hold hclosed
  rw [← flatten_inclusiveLines (handlerText indent old methods)]
  exact closeLine_of_isLine fun l hl => (hlines l hl).1

/-- Every handler that is found in written ones is closed. -/
theorem isClosed_handlerText : ∀ f ∈ FunctionText.ofText indent (handlerText indent old methods),
    f.IsClosed indent := by
  rw [ofText_handlerText hmethods hindent hbreak hold hclosed]
  intro f hf
  obtain ⟨before, last, hbody, -, -, hlast⟩ :=
    (isWhole_handlerFunctions hmethods hindent hbreak hold hclosed f hf).body
  exact ⟨last, by simp [hbody], hlast⟩

/-- A handler that was there is there again, with its body. -/
theorem find?_handlerText (hmethod : method ∈ methods) {f : FunctionText}
    (hfind : (FunctionText.ofText indent old).find?
      (·.signature == (handlerSignature method).toList) = some f) :
    (FunctionText.ofText indent (handlerText indent old methods)).find?
      (·.signature == (handlerSignature method).toList) = some f := by
  have hsame : ∀ other : Method,
      (handlerSignature other).toList = (handlerSignature method).toList →
      handlerFunction (FunctionText.ofText indent old) indent other = f := by
    intro other hsignature
    rw [handlerFunction, hsignature, hfind]
    rfl
  rw [ofText_handlerText hmethods hindent hbreak hold hclosed]
  apply find?_eq_some_of_forall
  · rw [← hsame method rfl]
    exact List.mem_map_of_mem hmethod
  · have hfound := List.find?_some hfind
    exact hfound
  · simp only [handlerFunctions, List.forall_mem_map, beq_iff_eq, signature_handlerFunction]
    exact fun other _ => hsame other

/-- Writing the handlers of the same methods again changes nothing. -/
theorem handlerText_handlerText (hnodup : (methods.map Method.tag).Nodup) :
    handlerText indent (handlerText indent old methods) methods =
      handlerText indent old methods := by
  have hfunctions : handlerFunctions indent (handlerText indent old methods) methods =
      handlerFunctions indent old methods := by
    rw [handlerFunctions, ofText_handlerText hmethods hindent hbreak hold hclosed]
    refine List.map_congr_left fun method hmethod => ?_
    have hfind : (handlerFunctions indent old methods).find?
        (·.signature == (handlerSignature method).toList) =
          some (handlerFunction (FunctionText.ofText indent old) indent method) := by
      apply find?_eq_some_of_forall
      · exact List.mem_map_of_mem hmethod
      · simp [signature_handlerFunction]
      · simp only [handlerFunctions, List.forall_mem_map, beq_iff_eq, signature_handlerFunction]
        intro other hother hsignature
        have htag := tag_of_handlerSignature (String.toList_inj.mp hsignature)
        rw [List.inj_on_of_nodup_map hnodup hother hmethod htag]
    rw [handlerFunction, hfind]
    rfl
  rw [handlerText, hfunctions, handlerText]

end Region

end Emit

end TypeLang
