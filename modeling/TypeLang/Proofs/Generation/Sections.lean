import TypeLang.Generation.Generated
import TypeLang.Proofs.Emit.Handlers
import TypeLang.Proofs.Emit.Instances
import TypeLang.Proofs.Model.Tags
import TypeLang.Proofs.Region.Patching

/-!
# Sections in their regions

What is generated for a section brings no marker line into the region, and it is generated again
when the section is generated over its own region.
-/
namespace TypeLang

open Text

variable {m : Model} {config : Config} {selection : Selection}

/-! ## Selections -/

/-- Every text of a selection is on one line. -/
structure Selection.IsUnbroken (selection : Selection) : Prop where
  types : ∀ t ∈ selection.types, t.IsUnbroken
  methods : ∀ method ∈ selection.methods, method.IsUnbroken
  read : ∀ vector ∈ selection.read.vectors, Unbroken vector.base
  written : ∀ vector ∈ selection.written.vectors, Unbroken vector.base

/-- The methods selected are those that are allowed. -/
theorem methods_of_select (h : m.select config = .ok selection) :
    selection.methods = m.methods.filter config.allows := by
  simp only [Model.select] at h
  split at h
  · cases h
  · cases h
    rfl

/-- What is selected of a model on one line is on one line. -/
theorem Model.IsUnbroken.select (hm : m.IsUnbroken) (h : m.select config = .ok selection) :
    selection.IsUnbroken := by
  have hmethods : ∀ method ∈ m.methods.filter config.allows, method.IsUnbroken :=
    fun method hmethod => hm.methods method (List.mem_of_mem_filter hmethod)
  have harguments : ∀ type ∈ (m.methods.filter config.allows).flatMap fun method =>
      (wireFields method.fields).map (·.type), Unbroken type.base := by
    simp only [List.mem_flatMap, List.mem_map, wireFields]
    rintro type ⟨method, hmethod, f, hf, rfl⟩
    exact ((hmethods method hmethod).fields f (List.mem_of_mem_filter hf)).type
  simp only [Model.select] at h
  split at h
  · cases h
  · cases h
    have htypes : ∀ t ∈ (m.resolve.ordered.filter fun name =>
        name ∉ config.withheldNames).filterMap m.type?, t.IsUnbroken := by
      intro t ht
      obtain ⟨name, -, hname⟩ := List.mem_filterMap.mp ht
      exact hm.types t (mem_types_of_type? hname).1
    refine ⟨htypes, hmethods, ?_, ?_⟩
    · apply hm.reach
      intro type htype
      simp only [List.mem_append, List.mem_map] at htype
      rcases htype with (⟨t, ht, rfl⟩ | ⟨method, hmethod, rfl⟩) | htype
      · exact TargetType.unbroken_ofText (htypes t ht).name
      · exact (hmethods method hmethod).result
      · exact harguments type htype
    · exact hm.reach _ harguments

theorem nodup_handled_tags {ds : List Definition} (hm : Model.Derived ds m)
    (h : m.select config = .ok selection) : (selection.handled.map Method.tag).Nodup := by
  rw [Selection.handled, methods_of_select h]
  exact hm.nodup_method_tags.sublist
    ((List.filter_sublist.trans List.filter_sublist).map Method.tag)

namespace Selection

variable {prior prior' : Prior} {x : Section}

/-- Apart from the handlers, a section is code whose lines end with punctuation. -/
theorem exists_code (h : selection.IsUnbroken) (hm : m.IsUnbroken)
    (hsender : Unbroken config.sender) (prior : Prior) (hx : x ≠ .handlerDefinitions) :
    ∃ code : Code, code.IsPunctuated ∧ selection.render m config prior x = code.text := by
  have hwritten : ∀ t ∈ selection.writtenTypes, t.IsUnbroken := fun t ht =>
    h.types t (List.mem_of_mem_filter ht)
  have hhandled : ∀ method ∈ selection.handled, method.IsUnbroken := fun method hmethod =>
    h.methods method (List.mem_of_mem_filter hmethod)
  have hupdating : ∀ method ∈ selection.updating, method.IsUnbroken := fun method hmethod =>
    h.methods method (List.mem_of_mem_filter hmethod)
  cases x with
  | values => exact ⟨_, Emit.punctuated_valuesCode _ hm, rfl⟩
  | types => exact ⟨_, Emit.punctuated_structsCode _ h.types, rfl⟩
  | readDeclarations =>
    exact ⟨_, Code.punctuated_flatMap.mpr fun t ht =>
      Emit.punctuated_streamDeclaration _ (h.types t ht), rfl⟩
  | writeDeclarations =>
    exact ⟨_, Code.punctuated_flatMap.mpr fun t ht =>
      Emit.punctuated_streamDeclaration _ (hwritten t ht), rfl⟩
  | readDefinitions =>
    exact ⟨_, Code.punctuated_blocks (List.forall_mem_map.mpr fun t ht =>
      Emit.punctuated_streamDefinition _ (h.types t ht)), rfl⟩
  | writeDefinitions =>
    exact ⟨_, Code.punctuated_blocks (List.forall_mem_map.mpr fun t ht =>
      Emit.punctuated_streamDefinition _ (hwritten t ht)), rfl⟩
  | readInstances => exact ⟨_, Emit.punctuated_instancesCode _ _ h.read, rfl⟩
  | writeInstances => exact ⟨_, Emit.punctuated_instancesCode _ _ h.written, rfl⟩
  | stubDeclarations =>
    exact ⟨_, Code.punctuated_flatMap.mpr fun method hmethod =>
      Emit.punctuated_stubDeclaration (h.methods method hmethod), rfl⟩
  | handlerDeclarations =>
    exact ⟨_, Code.punctuated_flatMap.mpr fun method hmethod =>
      Emit.punctuated_handlerDeclaration (hhandled method hmethod), rfl⟩
  | stubDefinitions =>
    exact ⟨_, Code.punctuated_blocks (List.forall_mem_map.mpr fun method hmethod =>
      Emit.punctuated_stubDefinition _ hsender (h.methods method hmethod)), rfl⟩
  | handlerDefinitions => exact absurd rfl hx
  | resultCases =>
    exact ⟨_, Code.punctuated_flatMap.mpr fun method hmethod =>
      Emit.punctuated_resultCase (hhandled method hmethod), rfl⟩
  | updatesCases =>
    exact ⟨_, Code.punctuated_flatMap.mpr fun method hmethod =>
      Emit.punctuated_updatesCase (hupdating method hmethod), rfl⟩
  | debugDeclarations =>
    exact ⟨_, Code.punctuated_flatMap.mpr fun t ht =>
      Emit.punctuated_printerDeclaration (h.types t ht), rfl⟩
  | debugDefinitions =>
    exact ⟨_, Code.punctuated_blocks (List.forall_mem_map.mpr fun t ht =>
      Emit.punctuated_printerDefinition (h.types t ht)), rfl⟩
  | requestCases =>
    exact ⟨_, Code.punctuated_flatMap.mpr fun method hmethod =>
      Emit.punctuated_dumpCase (h.methods method hmethod), rfl⟩

end Selection

/-! ## Written regions -/

/-- A region as it is found in a text: blank indentation, whole lines, and, where handlers are kept,
functions with a closing brace. -/
structure Section.IsFound (x : Section) (indent old : List Char) : Prop where
  blank : ∀ c ∈ indent, isBlank c
  unbroken : '\n' ∉ indent
  isLine : ∀ l ∈ inclusiveLines old, IsLine l
  closed : x = .handlerDefinitions → ∀ f ∈ FunctionText.ofText indent old, f.IsClosed indent

/-- The prior content of a section is what its region shows. -/
structure Prior.Shows (prior : Prior) (x : Section) (indent old : List Char) : Prop where
  content : prior.content? x = some (String.ofList (x.marker.shown indent old))
  indent : prior.indent x = String.ofList indent

namespace Selection

variable {prior prior' : Prior} {x : Section} {indent old : List Char}

/-- What is written into the region of a section. -/
def rewritten (selection : Selection) (m : Model) (config : Config) (prior : Prior) (x : Section)
    (indent : List Char) : List Char :=
  x.marker.written indent (selection.render m config prior x).toList

/-- The handlers are rewritten over those that are there. -/
theorem rewritten_handlerDefinitions (h : selection.IsUnbroken)
    (hx : Section.IsFound .handlerDefinitions indent old)
    (hprior : prior.Shows .handlerDefinitions indent old) :
    selection.rewritten m config prior .handlerDefinitions indent =
      Emit.handlerText indent old selection.handled := by
  have hmethods : ∀ method ∈ selection.handled, method.IsUnbroken := fun method hmethod =>
    h.methods method (List.mem_of_mem_filter hmethod)
  have hrender : selection.render m config prior .handlerDefinitions =
      String.ofList (Emit.handlerText indent old selection.handled) := by
    rw [Selection.render, hprior.content, hprior.indent]
    exact Emit.handlerDefinitions_eq indent old selection.handled
  rw [rewritten, hrender, String.toList_ofList]
  exact Emit.closeLine_handlerText hmethods hx.blank hx.unbroken hx.isLine (hx.closed rfl)

/-- The lines that are written into a region were there or are lines of code. -/
theorem of_mem_rewritten (h : selection.IsUnbroken) (hm : m.IsUnbroken)
    (hsender : Unbroken config.sender) (hx : x.IsFound indent old)
    (hprior : prior.Shows x indent old) :
    ∀ l ∈ inclusiveLines (selection.rewritten m config prior x indent),
      IsLine l ∧ (l ∈ inclusiveLines old ∨ IsCodeLine l) := by
  by_cases hhandlers : x = .handlerDefinitions
  · subst hhandlers
    rw [rewritten_handlerDefinitions h hx hprior]
    exact Emit.of_mem_handlerText (fun method hmethod =>
      h.methods method (List.mem_of_mem_filter hmethod)) hx.blank hx.unbroken hx.isLine
        (hx.closed rfl)
  · obtain ⟨code, hcode, hrender⟩ := exists_code h hm hsender prior hhandlers
    have hownership : x.marker.ownership = .generated := by
      revert hhandlers
      cases x <;> decide
    rw [rewritten, Marker.written, hownership, hrender]
    intro l hl
    obtain ⟨hline, hcodeLine⟩ := Code.of_mem_indentBlock hcode hx.blank hx.unbroken l hl
    exact ⟨hline, .inr hcodeLine⟩

/-- No marker line of a section is written that was not there. -/
theorem fits_rewritten (h : selection.IsUnbroken) (hm : m.IsUnbroken)
    (hsender : Unbroken config.sender) (hx : x.IsFound indent old)
    (hprior : prior.Shows x indent old) (xs : List Section) :
    Region.Fits (xs.map Section.marker) old (selection.rewritten m config prior x indent) := by
  intro l hl
  obtain ⟨hline, hold | hcode⟩ := of_mem_rewritten h hm hsender hx hprior l hl
  · exact ⟨hline, .inl hold⟩
  · refine ⟨hline, .inr ?_⟩
    simp only [List.forall_mem_map]
    exact fun y _ => Section.not_isMarkerLine hcode y

/-- A region is found again as it was written. -/
theorem isFound_rewritten (h : selection.IsUnbroken) (hm : m.IsUnbroken)
    (hsender : Unbroken config.sender) (hx : x.IsFound indent old)
    (hprior : prior.Shows x indent old) :
    x.IsFound indent (selection.rewritten m config prior x indent) := by
  refine ⟨hx.blank, hx.unbroken,
    fun l hl => (of_mem_rewritten h hm hsender hx hprior l hl).1, fun hhandlers => ?_⟩
  subst hhandlers
  rw [rewritten_handlerDefinitions h hx hprior]
  exact Emit.isClosed_handlerText (fun method hmethod =>
    h.methods method (List.mem_of_mem_filter hmethod)) hx.blank hx.unbroken hx.isLine
      (hx.closed rfl)

/-- A section that is generated over its own region stays what it is. -/
theorem render_rewritten (h : selection.IsUnbroken)
    (hnodup : (selection.handled.map Method.tag).Nodup) (hx : x.IsFound indent old)
    (hprior : prior.Shows x indent old)
    (hprior' : prior'.Shows x indent (selection.rewritten m config prior x indent)) :
    selection.render m config prior' x = selection.render m config prior x := by
  cases x with
  | handlerDefinitions =>
    have hmethods : ∀ method ∈ selection.handled, method.IsUnbroken := fun method hmethod =>
      h.methods method (List.mem_of_mem_filter hmethod)
    rw [rewritten_handlerDefinitions h hx hprior] at hprior'
    rw [Selection.render, Selection.render, hprior.content, hprior.indent, hprior'.content,
      hprior'.indent]
    simp only [Marker.shown, Section.marker, Section.ownership, Emit.handlerDefinitions_eq]
    rw [Emit.handlerText_handlerText hmethods hx.blank hx.unbroken hx.isLine (hx.closed rfl) hnodup]
  | readInstances =>
    rw [Selection.render, hprior'.content, rewritten]
    simp only [Selection.render, Marker.shown, Marker.written, Section.marker, Section.ownership]
    rw [Emit.instancesCode_written .read _ h.read hx.blank hx.unbroken]
  | writeInstances =>
    rw [Selection.render, hprior'.content, rewritten]
    simp only [Selection.render, Marker.shown, Marker.written, Section.marker, Section.ownership]
    rw [Emit.instancesCode_written .write _ h.written hx.blank hx.unbroken]
  | _ => rfl

end Selection

end TypeLang
