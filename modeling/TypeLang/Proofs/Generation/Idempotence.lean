import TypeLang.Proofs.Generation.Rounds

/-!
# Generating twice

A second round over the files that a round left changes none of them: what each region holds is
read back as it was written, so the sections that merge old lines with new ones come out the same.
-/
namespace TypeLang.Round

open Text

/-- Files after a round. -/
abbrev regenerated (selection : Selection) (m : Model) (config : Config)
    (files : List (String × String)) : List (String × String) :=
  files.map (after (rendered selection m config files))

variable {m : Model} {config : Config} {selection : Selection} {files : List (String × String)}
  {file : String × String} {outcomes : List (String × Outcome)} {x : Section}
  {indent content : List Char}

section Step

variable (hm : m.IsUnbroken) (hselect : m.select config = .ok selection)
  (hsender : Unbroken config.sender) (hfiles : WellKept files) (hfile : file ∈ files)
  (hnodup : (selection.handled.map Method.tag).Nodup)
include hm hselect hsender hfiles hfile hnodup

/-- What a second round writes into a region is what the first one left there. -/
theorem written_after (hfault : fault file = none) (hx : x ∈ Section.inFile file.1)
    (hview : x.marker.view (after (rendered selection m config files) file).2.toList =
      some (indent, content)) :
    x.marker.written indent
      (rendered selection m config (regenerated selection m config files) x).toList = content := by
  have hkept := hfiles.kept file hfile
  have hregion := view_after hm hselect hsender hfiles.nodup hfile hkept hx
  simp only [hview, if_pos hfault] at hregion
  obtain ⟨⟨indent', old⟩, hold, heq⟩ := Option.map_eq_some_iff.mp hregion.symm
  simp only [Prod.mk.injEq] at heq
  obtain ⟨rfl, rfl⟩ := heq
  have hnames : ((regenerated selection m config files).map (·.1)).Nodup := by
    rw [List.map_map]
    exact hfiles.nodup
  have hfault' := (fault_after hm hselect hsender hfiles.nodup hfile hkept).trans hfault
  have hshows := shows_load hnames (List.mem_map_of_mem hfile) hfault' hx hview
  rw [rendered, Selection.render_rewritten (hm.select hselect) hnodup (hkept.isFound hx hold)
    (shows_load hfiles.nodup hfile hfault hx hold) hshows, Selection.rewritten]

/-- What a second round makes of a file is what the first one made of it. -/
theorem outcomeOf_after :
    outcomeOf (rendered selection m config (regenerated selection m config files))
        (after (rendered selection m config files) file) =
      outcomeOf (rendered selection m config files) file := by
  have hkept := hfiles.kept file hfile
  cases hfault : fault file with
  | some e =>
    obtain ⟨houtcome, hafter⟩ := after_of_fault (rendered selection m config files) hfault
    rw [hafter, houtcome]
    exact (after_of_fault _ hfault).1
  | none =>
    obtain ⟨text, hpatch, htidy, -⟩ :=
      exists_patchFile hm hselect hsender hfiles.nodup hfile hkept hfault
    obtain ⟨houtcome, hafter⟩ := after_of_patchFile hfault hpatch
    have hfault' := (fault_after hm hselect hsender hfiles.nodup hfile hkept).trans hfault
    have hwritten : ∀ x ∈ Section.inFile file.1, ∀ indent content,
        x.marker.view text = some (indent, content) → x.marker.written indent
          (rendered selection m config (regenerated selection m config files) x).toList =
            content := by
      intro x hx indent content hview
      apply written_after hm hselect hsender hfiles hfile hnodup hfault hx
      rw [hafter, String.toList_ofList]
      exact hview
    have hagain := patchFile_of_view (fun x hx => htidy.closed _ (List.mem_map_of_mem hx)) hwritten
    rw [hafter] at hfault' ⊢
    rw [houtcome]
    exact (after_of_patchFile hfault' hagain).1

end Step

/-- Sections that make the same of the files that others left leave them as they are. -/
theorem map_after {g g' : Generated}
    (h : ∀ file ∈ files, outcomeOf g' (after g file) = outcomeOf g file) :
    ((files.map (after g)).map fun file => (file.1, outcomeOf g' file)) =
        files.map (fun file => (file.1, outcomeOf g file)) ∧
      (files.map (after g)).map (after g') = files.map (after g) := by
  rw [List.map_map, List.map_map]
  constructor
  · apply List.map_congr_left
    intro file hfile
    rw [Function.comp_apply, h file hfile, after]
  · apply List.map_congr_left
    intro file hfile
    rw [Function.comp_apply, after, h file hfile, after]
    cases outcomeOf g file <;> rfl

/-- Generating again, for the same schema and configuration, makes the same of every file, and
leaves all of them as they are. -/
theorem run_apply {text : String} {ds : List Definition} (hschema : readSchema text = .ok ds)
    (hsender : '\n' ∉ config.sender.toList) (hfiles : WellKept files)
    (h : run (buildModel config ds) config files = .ok outcomes) :
    run (buildModel config ds) config (apply files outcomes) = .ok outcomes ∧
      apply (apply files outcomes) outcomes = apply files outcomes := by
  have hderived := Model.derived_buildModel config ds
  have hm := hderived.unbroken (unbroken_of_readSchema hschema)
  obtain ⟨selection, hselect, rfl⟩ := run_eq_ok.mp h
  obtain ⟨houtcomes, hfixed⟩ := map_after fun file hfile =>
    outcomeOf_after hm hselect ⟨hsender⟩ hfiles hfile (nodup_handled_tags hderived hselect)
  rw [apply_outcomes]
  refine ⟨run_eq_ok.mpr ⟨selection, hselect, houtcomes.symm⟩, ?_⟩
  rw [← houtcomes, apply_outcomes, hfixed]

/-- Two rounds over a file with a handler that is written by hand. -/
theorem run_apply_handwritten : ∃ outcomes,
    run (buildModel {} (definitionsOf handledText)) {} [(handlerFile, handwritten)] =
        .ok outcomes ∧
      run (buildModel {} (definitionsOf handledText)) {}
        (apply [(handlerFile, handwritten)] outcomes) = .ok outcomes ∧
      apply (apply [(handlerFile, handwritten)] outcomes) outcomes =
        apply [(handlerFile, handwritten)] outcomes := by
  have hschema : (readSchema handledText).isOk ∧
      ((buildModel {} (definitionsOf handledText)).select {}).isOk := by
    decide +kernel
  have hsender : '\n' ∉ ({} : Config).sender.toList := by decide
  have hfiles : WellKept [(handlerFile, handwritten)] := ⟨List.nodup_singleton _,
    List.forall_mem_singleton.mpr isKept_handwritten⟩
  obtain ⟨outcomes, hrun⟩ := exists_run hschema.2 [(handlerFile, handwritten)]
  exact ⟨outcomes, hrun,
    run_apply (readSchema_eq_ok_definitionsOf hschema.1) hsender hfiles hrun⟩

end TypeLang.Round
