import TypeLang.Proofs.Generation.Rounds

/-!
# Handlers over many rounds

A handler that stands in its region is there after any rounds that dispatch its method, each for a
schema and a configuration of its own: a round finds it by its signature and writes it again, and a
file that cannot be read stays as it is.
-/
namespace TypeLang

open Text Round

/-- The handler of a method as it stands in the file of the handlers, with the indentation of the
region: the first function of the region with its signature. -/
def Method.handler? (m : Method) (text : String) : Option (List Char × FunctionText) :=
  (Section.handlerDefinitions.marker.view text.toList).bind fun v =>
    ((FunctionText.ofText v.1 v.2).find? (·.signature == (Emit.handlerSignature m).toList)).map
      fun f => (v.1, f)

/-- Whether a method of this name has a handler of its own. -/
def Config.Dispatches (config : Config) (ds : List Definition) (name : String) : Prop :=
  ∃ m ∈ (buildModel config ds).methods, m.name = name ∧ config.allows m ∧ !Emit.returnsUpdates m

/-- Rounds in a row that all dispatch a method, by what they make of the file of the handlers. Each
has its own schema and configuration, and runs over other files besides. -/
inductive DispatchingRounds (name : String) : String → String → Prop where
  | none (text : String) : DispatchingRounds name text text
  | round {first text last schema : String} {ds : List Definition} {config : Config}
      {files : List (String × String)} {outcomes : List (String × Outcome)}
      (earlier : DispatchingRounds name first text) (hschema : readSchema schema = .ok ds)
      (hsender : '\n' ∉ config.sender.toList) (hdispatches : config.Dispatches ds name)
      (hnodup : (files.map (·.1)).Nodup) (hfile : (handlerFile, text) ∈ files)
      (hrun : run (buildModel config ds) config files = .ok outcomes)
      (hlast : (handlerFile, last) ∈ apply files outcomes) : DispatchingRounds name first last

/-- A function stands in a text: behind a line with its signature comes its body, from an opening
brace at the indentation to the closing one. -/
structure FunctionText.StandsIn (f : FunctionText) (indent : List Char) (text : String) : Prop where
  whole : f.IsWhole indent
  lines : ∃ front line back,
    inclusiveLines text.toList = front ++ line :: (inclusiveLines f.body ++ back) ∧
      lineAt? indent line = some f.signature

variable {m method : Method} {text first last : String} {indent : List Char} {f : FunctionText}

theorem handlerSignature_eq_of_name (h : method.name = m.name) :
    Emit.handlerSignature method = Emit.handlerSignature m := by
  unfold Emit.handlerSignature
  rw [h]

/-- The handler of a method is the first function of its signature in the region. -/
theorem Method.handler?_eq_some_iff : m.handler? text = some (indent, f) ↔ ∃ content,
    Section.handlerDefinitions.marker.view text.toList = some (indent, content) ∧
      (FunctionText.ofText indent content).find?
        (·.signature == (Emit.handlerSignature m).toList) = some f := by
  simp only [Method.handler?, Option.bind_eq_some_iff, Option.map_eq_some_iff, Prod.mk.injEq,
    Prod.exists]
  constructor
  · rintro ⟨indent, content, hview, f, hfind, rfl, rfl⟩
    exact ⟨content, hview, hfind⟩
  · rintro ⟨content, hview, hfind⟩
    exact ⟨indent, content, hview, f, hfind, rfl, rfl⟩

theorem handlerDefinitions_mem : .handlerDefinitions ∈ Section.inFile handlerFile :=
  Section.mem_inFile.mpr rfl

/-- A handler that is found in a kept file stands there. -/
theorem standsIn_of_handler? (hkept : IsKept (handlerFile, text))
    (hhandler : m.handler? text = some (indent, f)) : f.StandsIn indent text := by
  obtain ⟨content, hview, hfind⟩ := Method.handler?_eq_some_iff.mp hhandler
  have hfound := hkept.isFound handlerDefinitions_mem hview
  have hmem := List.mem_of_find?_eq_some hfind
  obtain ⟨hwhole, -, front, line, back, hcontent, hline⟩ :=
    FunctionText.of_mem_ofText hfound.isLine hmem (hfound.closed rfl f hmem)
  obtain ⟨c, -, hlines, -, -, rfl⟩ := Region.exists_cut_of_view hview
  rw [Region.inclusiveLines_content hlines] at hcontent
  refine ⟨hwhole, c.before ++ c.opening :: front, line, back ++ c.closing :: c.after, ?_, hline⟩
  rw [← hlines, Region.Cut.lines, hcontent]
  simp

/-- One round keeps a handler that it dispatches to. -/
theorem handler?_after {model : Model} {config : Config} {selection : Selection}
    {files : List (String × String)} (hm : model.IsUnbroken)
    (hselect : model.select config = .ok selection) (hsender : Unbroken config.sender)
    (hnodup : (files.map (·.1)).Nodup) (hfile : (handlerFile, text) ∈ files)
    (hkept : IsKept (handlerFile, text)) (hmethod : method ∈ selection.handled)
    (hname : method.name = m.name) (hhandler : m.handler? text = some (indent, f)) :
    m.handler? (after (rendered selection model config files) (handlerFile, text)).2 =
      some (indent, f) := by
  obtain ⟨old, hview, hfind⟩ := Method.handler?_eq_some_iff.mp hhandler
  have hafter := view_after hm hselect hsender hnodup hfile hkept handlerDefinitions_mem
  rw [hview, Option.map_some] at hafter
  refine Method.handler?_eq_some_iff.mpr ⟨_, hafter, ?_⟩
  split
  · next hfault =>
    have hfound := hkept.isFound handlerDefinitions_mem hview
    rw [Selection.rewritten_handlerDefinitions (hm.select hselect) hfound
      (shows_load hnodup hfile hfault handlerDefinitions_mem hview)]
    rw [← handlerSignature_eq_of_name hname] at hfind ⊢
    exact Emit.find?_handlerText (fun k hk => (hm.select hselect).methods k
      (List.mem_of_mem_filter hk)) hfound.blank hfound.unbroken hfound.isLine (hfound.closed rfl)
        hmethod hfind
  · exact hfind

/-- One more round keeps what the rounds before it kept. -/
theorem DispatchingRounds.round_singleton {name schema : String} {ds : List Definition}
    {config : Config} {outcomes : List (String × Outcome)}
    (earlier : DispatchingRounds name first text) (hschema : readSchema schema = .ok ds)
    (hsender : '\n' ∉ config.sender.toList) (hdispatches : config.Dispatches ds name)
    (hrun : run (buildModel config ds) config [(handlerFile, text)] = .ok outcomes)
    (happly : apply [(handlerFile, text)] outcomes = [(handlerFile, last)]) :
    DispatchingRounds name first last := by
  refine earlier.round hschema hsender hdispatches ?_ List.mem_cons_self hrun ?_
  · exact List.nodup_singleton _
  · rw [happly]
    exact List.mem_cons_self

/-- What rounds keep of the file of the handlers. -/
theorem DispatchingRounds.keep (h : DispatchingRounds m.name first last)
    (hkept : IsKept (handlerFile, first)) (hhandler : m.handler? first = some (indent, f)) :
    IsKept (handlerFile, last) ∧ m.handler? last = some (indent, f) := by
  induction h with
  | none => exact ⟨hkept, hhandler⟩
  | @round text last schema ds config files outcomes _ hschema hsender hdispatches hnodup hfile hrun
      hlast ih =>
    obtain ⟨hkept', hhandler'⟩ := ih
    have hm := (Model.derived_buildModel config ds).unbroken (unbroken_of_readSchema hschema)
    obtain ⟨selection, hselect, rfl⟩ := run_eq_ok.mp hrun
    obtain ⟨method, hmethod, hname, hallows, hown⟩ := hdispatches
    have hhandled : method ∈ selection.handled := by
      rw [Selection.handled, methods_of_select hselect]
      exact List.mem_filter.mpr ⟨List.mem_filter.mpr ⟨hmethod, hallows⟩, hown⟩
    -- Names are not shared, so the file that the round leaves is made of the one it found.
    rw [apply_outcomes] at hlast
    obtain ⟨file, hfile', hafter⟩ := List.mem_map.mp hlast
    have hfileName : file.1 = handlerFile := congrArg Prod.fst hafter
    have hsame : file = (handlerFile, text) :=
      List.inj_on_of_nodup_map hnodup hfile' hfile hfileName
    subst hsame
    have hlastText : (after (rendered selection (buildModel config ds) config files)
        (handlerFile, text)).2 = last := congrArg Prod.snd hafter
    refine ⟨?_, ?_⟩
    · rw [← hafter]
      exact isKept_after hm hselect ⟨hsender⟩ hnodup hfile hkept'
    · rw [← hlastText]
      exact handler?_after hm hselect ⟨hsender⟩ hnodup hfile hkept' hhandled hname hhandler'

/-- A handler survives any rounds that dispatch its method: it is still found by its signature, at
the same indentation, and stands in the text with the same body. -/
theorem DispatchingRounds.standsIn (h : DispatchingRounds m.name first last)
    (hkept : IsKept (handlerFile, first)) (hhandler : m.handler? first = some (indent, f)) :
    m.handler? last = some (indent, f) ∧ f.StandsIn indent last := by
  obtain ⟨hkept', hhandler'⟩ := h.keep hkept hhandler
  exact ⟨hhandler', standsIn_of_handler? hkept' hhandler'⟩

/-- A later schema for the same handler, with one more method before it. -/
def laterText : String :=
  "a#1 = A;\nb#3 = B;\n---functions---\nauth.e#4 = B;\nauth.f#5 n:int = A;\n"

def handledMethod : Method where
  name := "authF"
  id := 2
  result := .plain "TLA"
  fields := []
  source := none
  template := false

def handwrittenFunction : FunctionText :=
  ⟨"void CTelegramConnection::processAuthF(RpcProcessingContext *context)".toList,
    "  \x7b\n#if 1\n    done();  \r\n  \x7d\n".toList⟩

/-- Two rounds over a file with a handler, the second for another schema. -/
theorem standsIn_handwritten : ∃ outcomes later last,
    run (buildModel {} (definitionsOf handledText)) {} [(handlerFile, handwritten)] =
        .ok outcomes ∧
      run (buildModel {} (definitionsOf laterText)) {}
        (apply [(handlerFile, handwritten)] outcomes) = .ok later ∧
      apply (apply [(handlerFile, handwritten)] outcomes) later = [(handlerFile, last)] ∧
      handledMethod.handler? last = some ("  ".toList, handwrittenFunction) ∧
      handwrittenFunction.StandsIn "  ".toList last := by
  have hfind : handledMethod.handler? handwritten = some ("  ".toList, handwrittenFunction) := by
    rw [Method.handler?, handwritten_toList]
    decide +kernel
  have hsender : '\n' ∉ ({} : Config).sender.toList := by decide
  have hschemas : ∀ text ∈ [handledText, laterText], (readSchema text).isOk ∧
      ((buildModel {} (definitionsOf text)).select {}).isOk ∧
        ∃ m ∈ (buildModel {} (definitionsOf text)).methods, m.name = handledMethod.name ∧
          ({} : Config).allows m ∧ !Emit.returnsUpdates m := by
    decide +kernel
  obtain ⟨hread, hselect, hdispatches⟩ := hschemas handledText (by simp)
  obtain ⟨hread', hselect', hdispatches'⟩ := hschemas laterText (by simp)
  obtain ⟨outcomes, hrun⟩ := exists_run hselect [(handlerFile, handwritten)]
  obtain ⟨text, happly⟩ := exists_apply_singleton hrun
  obtain ⟨later, hrun'⟩ := exists_run hselect' [(handlerFile, text)]
  obtain ⟨last, happly'⟩ := exists_apply_singleton hrun'
  have hrounds : DispatchingRounds handledMethod.name handwritten last :=
    ((DispatchingRounds.none handwritten).round_singleton (readSchema_eq_ok_definitionsOf hread)
      hsender hdispatches hrun happly).round_singleton (readSchema_eq_ok_definitionsOf hread')
        hsender hdispatches' hrun' happly'
  refine ⟨outcomes, later, last, hrun, ?_⟩
  rw [happly]
  exact ⟨hrun', happly', hrounds.standsIn isKept_handwritten hfind⟩

end TypeLang
