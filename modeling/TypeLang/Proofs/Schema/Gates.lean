import TypeLang.Proofs.Schema.Statement
import TypeLang.Schema.Listing

/-!
# Declared gates

A gate can only be read behind the flags word it looks at. The parameters of every definition that
is read respect this: each gate names a flags word among the parameters in front of it. In the
dialect of listings nothing is gated.
-/
namespace TypeLang

open Text

/-! ## Names in scope -/

section Scoped

variable {α β : Type} {declared needed : α → Option String} {scope : List String} {as : List α}

/-- Every element needs names in scope only; what an element declares is in scope behind it. -/
def Scoped (declared needed : α → Option String) : List String → List α → Prop
  | _, [] => True
  | scope, a :: as =>
    (∀ name ∈ needed a, name ∈ scope) ∧ Scoped declared needed ((declared a).toList ++ scope) as

/-- What is in a scope is in a wider one. -/
theorem Scoped.mono {wider : List String} (h : Scoped declared needed scope as)
    (hscope : scope ⊆ wider) : Scoped declared needed wider as := by
  induction as generalizing scope wider with
  | nil => trivial
  | cons a as ih =>
    refine ⟨fun name hname => hscope (h.1 name hname), ih h.2 ?_⟩
    exact List.append_subset.mpr
      ⟨List.subset_append_left _ _, List.Subset.trans hscope (List.subset_append_right _ _)⟩

/-- Where nothing is needed nothing has to be declared. -/
theorem Scoped.of_needless (h : ∀ a ∈ as, needed a = none) : Scoped declared needed scope as := by
  induction as generalizing scope with
  | nil => trivial
  | cons a as ih =>
    refine ⟨?_, ih fun b hb => h b (List.mem_cons_of_mem _ hb)⟩
    simp [h a List.mem_cons_self]

/-- Renaming what is declared and what is needed alike keeps every name in scope. -/
theorem Scoped.map {declared' needed' : β → Option String} {f : α → β} (rename : String → String)
    (hdeclared : ∀ a ∈ as, ∀ name ∈ declared a, rename name ∈ declared' (f a))
    (hneeded : ∀ a ∈ as, ∀ name ∈ needed' (f a), ∃ old ∈ needed a, name = rename old)
    (h : Scoped declared needed scope as) :
    Scoped declared' needed' (scope.map rename) (as.map f) := by
  induction as generalizing scope with
  | nil => trivial
  | cons a as ih =>
    constructor
    · intro name hname
      obtain ⟨old, hold, rfl⟩ := hneeded a List.mem_cons_self name hname
      exact List.mem_map_of_mem (h.1 old hold)
    · refine (ih (fun b hb => hdeclared b (List.mem_cons_of_mem _ hb))
        (fun b hb => hneeded b (List.mem_cons_of_mem _ hb)) h.2).mono ?_
      rw [List.map_append]
      refine List.append_subset.mpr ⟨?_, List.subset_append_right _ _⟩
      intro name hname
      obtain ⟨old, hold, rfl⟩ := List.mem_map.mp hname
      have := hdeclared a List.mem_cons_self old (by simpa using hold)
      exact List.mem_append_left _ (by simpa using this)

/-- What an element needs is in scope already or declared by an element in front of it. -/
theorem Scoped.exists_before {name : String} {a : α} {i : Nat}
    (h : Scoped declared needed scope as) (ha : as[i]? = some a) (hname : name ∈ needed a) :
    name ∈ scope ∨ ∃ j < i, ∃ b, as[j]? = some b ∧ name ∈ declared b := by
  induction as generalizing scope i with
  | nil => cases ha
  | cons first as ih =>
    cases i with
    | zero =>
      cases ha
      exact .inl (h.1 name hname)
    | succ i =>
      rcases ih h.2 ha with hscope | ⟨j, hj, b, hb, hdeclared⟩
      · rcases List.mem_append.mp hscope with hfirst | hscope
        · exact .inr ⟨0, Nat.succ_pos i, first, rfl, by simpa using hfirst⟩
        · exact .inl hscope
      · exact .inr ⟨j + 1, Nat.succ_lt_succ hj, b, hb, hdeclared⟩

/-- What an element needs is in scope already or declared by an element. -/
theorem Scoped.exists_declared {name : String} {a : α} (h : Scoped declared needed scope as)
    (ha : a ∈ as) (hname : name ∈ needed a) : name ∈ scope ∨ ∃ b ∈ as, name ∈ declared b := by
  obtain ⟨i, hi⟩ := List.mem_iff_getElem?.mp ha
  rcases h.exists_before hi hname with hscope | ⟨j, -, b, hb, hdeclared⟩
  · exact .inl hscope
  · exact .inr ⟨b, List.mem_of_getElem? hb, hdeclared⟩

end Scoped

/-! ## Parameters -/

namespace Parameter

/-- The flags word that a parameter declares. -/
def declared? (p : Parameter) : Option String := if p.type = .flags then some p.name else none

/-- The flags word that the gate of a parameter looks at. -/
def needed? (p : Parameter) : Option String := p.type.gate?.map (·.word)

/-- Gates look at flags words in front of them. -/
abbrev Gated (ps : List Parameter) : Prop := Scoped declared? needed? [] ps

end Parameter

namespace Definition

/-- What is done with one token: the flags words that its gate needs are declared already, and those
that it declares are declared for the tokens behind it. -/
theorem readParameters_cons {scope : List String} {token : List Char} {tokens : List (List Char)}
    {ps : List Parameter} : readParameters scope (token :: tokens) = .ok ps ↔
      ∃ p rest, Parameter.read token = .ok p ∧ (∀ word ∈ p.needed?, word ∈ scope) ∧
        readParameters (scope ++ p.declared?.toList) tokens = .ok rest ∧ p :: rest = ps := by
  rw [readParameters]
  cases hp : Parameter.read token with
  | error cause => simp
  | ok p =>
    have hcons : ∀ scope, (do return p :: (← readParameters scope tokens)) = Except.ok ps ↔
        ∃ rest, readParameters scope tokens = .ok rest ∧ p :: rest = ps := fun scope => by
      simp only [bind_eq_ok, pure_eq_ok]
    simp only [Except.ok.injEq, exists_and_left, exists_eq_left']
    rcases htype : p.type with _ | ⟨type, _ | gate⟩
    · simp [hcons, htype, Parameter.needed?, Parameter.declared?, ParameterType.gate?,
        -bind_pure_comp]
    · simp [hcons, htype, Parameter.needed?, Parameter.declared?, ParameterType.gate?,
        -bind_pure_comp]
    · by_cases hscope : gate.word ∈ scope <;>
        simp [hcons, htype, hscope, Parameter.needed?, Parameter.declared?, ParameterType.gate?,
          -bind_pure_comp]

/-- Without gates every token is read by itself. -/
theorem readParameters_of_mapM {tokens : List (List Char)} {ps : List Parameter}
    (h : tokens.mapM Parameter.read = .ok ps) (hneedless : ∀ p ∈ ps, p.needed? = none)
    (scope : List String) : readParameters scope tokens = .ok ps := by
  induction tokens generalizing scope ps with
  | nil =>
    cases h
    rfl
  | cons token tokens ih =>
    simp only [List.mapM_cons, bind_eq_ok, pure_eq_ok] at h
    obtain ⟨p, hp, rest, hrest, rfl⟩ := h
    obtain ⟨hfirst, hneedless⟩ := List.forall_mem_cons.mp hneedless
    exact readParameters_cons.mpr ⟨p, rest, hp, by simp [hfirst], ih hrest hneedless _, rfl⟩

/-- Parameters are gated by words in front of them only. -/
theorem scoped_of_readParameters {scope : List String} {tokens : List (List Char)}
    {ps : List Parameter} (h : readParameters scope tokens = .ok ps) :
    Scoped Parameter.declared? Parameter.needed? scope ps := by
  induction tokens generalizing scope ps with
  | nil => cases h; trivial
  | cons token tokens ih =>
    obtain ⟨p, rest, -, hneeded, hrest, rfl⟩ := readParameters_cons.mp h
    refine ⟨hneeded, (ih hrest).mono ?_⟩
    exact List.append_subset.mpr ⟨List.subset_append_right _ _, List.subset_append_left _ _⟩

end Definition

/-- The definitions of a schema, read from a text or from a listing. -/
def Parsed (ds : List Definition) : Prop :=
  (∃ text, readSchema text = .ok ds) ∨ ∃ bytes, readListing bytes = .ok ds

namespace Listing

/-- A listed parameter has no gate. -/
theorem gate?_of_readParameter {listed : ListedParameter} {p : Parameter}
    (h : readParameter listed = .ok p) : p.type.gate? = none := by
  simp only [readParameter] at h
  split at h
  · cases h
  · simp only [map_eq_ok, mapError_eq_ok, ParameterType.readUngated] at h
    obtain ⟨type, htype, rfl⟩ := h
    split at htype
    · cases htype
    · next hmark =>
      simp only [ParameterType.read] at htype
      split at htype
      · cases htype; rfl
      · split at htype
        · simp only [map_eq_ok] at htype
          obtain ⟨expr, -, rfl⟩ := htype
          rfl
        · next gate rest hcut =>
          -- A question mark to cut at has been refused.
          exact absurd (by simpa [has] using mem_of_cut? hcut) hmark

/-- The parameters of a listed definition are gated. -/
theorem gated_of_readEntry {spelling : Spelling} {category : Category} {entry : ListedEntry}
    {d : Definition} (h : readEntry spelling category entry = .ok d) :
    Parameter.Gated d.parameters := by
  simp only [readEntry] at h
  split at h
  · simp only [bind_eq_ok] at h
    obtain ⟨result, -, h⟩ := h
    split at h
    · simp only [bind_eq_ok, pure_eq_ok] at h
      obtain ⟨-, rfl, id, -, rfl⟩ := h
      trivial
    · simp only [bind_eq_ok, pure_eq_ok] at h
      obtain ⟨parameters, hparameters, id, -, rfl⟩ := h
      apply Scoped.of_needless
      intro p hp
      obtain ⟨listed, -, hread⟩ := exists_of_mem_mapM hparameters hp
      simp [Parameter.needed?, gate?_of_readParameter hread]
  · simp at h

/-- Every definition of a listing is read from an entry. -/
theorem exists_readEntry {bytes : List UInt8} {ds : List Definition} {d : Definition}
    (h : readListing bytes = .ok ds) (hd : d ∈ ds) :
    ∃ spelling category entry, readEntry spelling category entry = .ok d := by
  have hentries : ∀ {spelling : Spelling} {category : Category} {entries : List ListedEntry}
      {ds : List Definition}, readEntries spelling category entries = .ok ds → d ∈ ds →
      ∃ entry, readEntry spelling category entry = .ok d := by
    intro spelling category entries ds h hd
    obtain ⟨entry, -, hread⟩ := exists_of_mem_mapM h hd
    exact ⟨entry, mapError_eq_ok.mp hread⟩
  simp only [readListing] at h
  split at h
  · cases h
  · simp only [definitions, bind_eq_ok, pure_eq_ok] at h
    obtain ⟨spelling, -, constructors, hconstructors, methods, hmethods, rfl⟩ := h
    rcases List.mem_append.mp hd with hd | hd
    · exact ⟨spelling, _, hentries hconstructors hd⟩
    · exact ⟨spelling, _, hentries hmethods hd⟩

end Listing

theorem Definition.gated_of_read {cs : List Char} {d : Definition} (h : read cs = .ok d) :
    Parameter.Gated d.parameters := by
  obtain ⟨left, right, -, -, -, -, ⟨-, hempty⟩ | hread⟩ := read_eq_ok h
  · rw [hempty]
    trivial
  · exact scoped_of_readParameters hread

/-- In every definition of a schema the gates are declared. -/
theorem Parsed.gated {ds : List Definition} (h : Parsed ds) {d : Definition} (hd : d ∈ ds) :
    Parameter.Gated d.parameters := by
  rcases h with ⟨text, h⟩ | ⟨bytes, h⟩
  · obtain ⟨category, statement, -, hread⟩ := exists_statement h hd
    simp only [Document.readStatement, map_eq_ok] at hread
    obtain ⟨d, hread, rfl⟩ := hread
    have hgates := Definition.gated_of_read hread
    exact hgates
  · obtain ⟨spelling, category, entry, hread⟩ := Listing.exists_readEntry h hd
    exact Listing.gated_of_readEntry hread

end TypeLang
