import TypeLang.Proofs.Emit.Constants
import TypeLang.Proofs.Generation.Operators
import TypeLang.Proofs.Generation.Sections
import TypeLang.Proofs.Model.Origin
import TypeLang.Proofs.Model.Regrouping
import TypeLang.Proofs.Wire.Dispatch

/-!
# Tags and ids

The constant of a tag is the id of the first definition with that tag. Constructors have different
names and so have methods, but a method may be called like a constructor: then the two share a
constant, and only the first of them has its own id in it.
-/
namespace TypeLang

open Text

/-! ## Sources -/

/-- The source of a definition in a listing is written for it. -/
theorem Listing.exists_text_of_readEntry {spelling : Spelling} {category : Category}
    {entry : ListedEntry} {d : Definition} (h : readEntry spelling category entry = .ok d) :
    ∃ e : Definition, d.source = some e.text := by
  simp only [readEntry] at h
  split at h
  · simp only [bind_eq_ok] at h
    obtain ⟨result, -, h⟩ := h
    split at h <;> simp only [bind_eq_ok, pure_eq_ok] at h
    all_goals
      obtain ⟨parameters, -, id, -, rfl⟩ := h
      exact ⟨_, rfl⟩
  · simp at h

/-- The source of a definition ends with a semicolon. -/
theorem Parsed.getLast?_source {ds : List Definition} (h : Parsed ds) {d : Definition}
    (hd : d ∈ ds) : ∀ source ∈ d.source, source.toList.getLast? = some ';' := by
  rcases h with ⟨text, h⟩ | ⟨bytes, h⟩
  · obtain ⟨category, statement, hstatement, hread⟩ := exists_statement h hd
    simp only [Document.readStatement, map_eq_ok] at hread
    obtain ⟨d, -, rfl⟩ := hread
    simpa using hstatement.closed
  · obtain ⟨spelling, category, entry, hread⟩ := Listing.exists_readEntry h hd
    obtain ⟨e, hsource⟩ := Listing.exists_text_of_readEntry hread
    rw [hsource]
    rintro _ ⟨⟩
    rw [Definition.text, String.toList_append]
    exact List.getLast?_concat

/-! ## First definitions -/

variable {ds : List Definition} {m : Model}

namespace Model

/-- The groups list the definitions that count, in order. -/
theorem entries_ofDefinitions (ds : List Definition) :
    (Model.ofDefinitions ds).groups.flatMap (·.entries) = (kept ds).map .ofDefinition :=
  (regroups_ofDefinitions ds).entries

/-- The first definition of a tag counts. -/
theorem find?_kept (ds : List Definition) (tag : String) :
    (kept ds).find? (·.tag == tag) = ds.find? (·.tag == tag) := by
  refine find?_distinctBy (fun d e hkey => ?_) ds
  rw [Definition.entity, Definition.entity, Prod.mk.injEq] at hkey
  rw [Definition.tag, Definition.tag, hkey.2]

end Model

/-- The constant of a tag stands for a definition: the first in the schema with that tag, whatever
its category. One line defines the constant, as the id of that definition. -/
structure Definition.StandsFor (first : Definition) (ds : List Definition) (lines : List String)
    (tag : String) : Prop where
  find_eq : ds.find? (·.tag == tag) = some first
  values_eq : Emit.valuesIn (Emit.tagConstant tag) lines = [first.id]

namespace Model

/-- Every definition that counts has a constant, and shares it with an earlier one of the other
category at most. -/
theorem Derived.exists_standsFor (hds : Parsed ds) (hm : m.Derived ds) (sources : Bool)
    {d : Definition} (hd : d ∈ kept ds) : ∃ first : Definition,
      first.StandsFor ds (Emit.valuesCode sources m).statements d.tag ∧
        (first.category = d.category → first = d) := by
  have hentries : m.groups.flatMap (·.entries) = (kept ds).map .ofDefinition := by
    rw [hm.groups_eq, entries_ofDefinitions]
  have hclosed : ∀ group ∈ m.groups, ∀ entry ∈ group.entries, ∀ source ∈ entry.source,
      source.toList.getLast? = some ';' := by
    intro group hgroup entry hentry
    have hmem : entry ∈ m.groups.flatMap (·.entries) := List.mem_flatMap.mpr ⟨group, hgroup, hentry⟩
    rw [hentries] at hmem
    obtain ⟨e, he, rfl⟩ := List.mem_map.mp hmem
    exact hds.getLast?_source ((kept_sublist ds).subset he)
  obtain ⟨first, hfirst⟩ : ∃ first, (kept ds).find? (·.tag == d.tag) = some first :=
    Option.isSome_iff_exists.mp (List.find?_isSome.mpr ⟨d, hd, by simp⟩)
  have htag : first.tag = d.tag := by simpa using List.find?_some hfirst
  refine ⟨first, ⟨by rw [← find?_kept, hfirst], ?_⟩, fun hcategory => ?_⟩
  · rw [Emit.valuesIn_valuesCode _ _ hclosed, hentries, List.find?_map]
    simp only [Function.comp_def, GroupEntry.ofDefinition, hfirst, Option.map_some,
      Option.toList_some]
  · have hname : first.entityName = d.entityName := Naming.tag_inj htag
    exact List.inj_on_of_nodup_map nodup_map_distinctBy (List.mem_of_find?_eq_some hfirst) hd
      (Prod.ext hcategory hname)

end Model

/-- The constant of a constructor has its own id, unless a method of the same tag comes first. -/
theorem Model.Derived.exists_standsFor_constructor (hds : Parsed ds) (hm : m.Derived ds)
    (sources : Bool) {t : TaggedType} (ht : t ∈ m.types) {c : Constructor}
    (hc : c ∈ t.constructors) : ∃ first : Definition,
      first.StandsFor ds (Emit.valuesCode sources m).statements c.tag ∧
        (first.category = .types → first.id = c.id) := by
  obtain ⟨d, hd, hcategory, hstands⟩ := hm.exists_stands hds t ht c hc
  obtain ⟨first, hfirst, hown⟩ := hm.exists_standsFor hds sources hd
  have htag : c.tag = d.tag := by rw [Constructor.tag, Definition.tag, hstands.name]
  rw [← htag] at hfirst
  refine ⟨first, hfirst, fun htypes => ?_⟩
  rw [hown (htypes.trans hcategory.symm), hstands.redraft.id, Constructor.ofDefinition]

/-- The constant of a method has its own id, unless a constructor of the same tag comes first. -/
theorem Model.Derived.exists_standsFor_method (hds : Parsed ds) (hm : m.Derived ds)
    (sources : Bool) {method : Method} (hmethod : method ∈ m.methods) : ∃ first : Definition,
      first.StandsFor ds (Emit.valuesCode sources m).statements method.tag ∧
        (first.category = .functions → first.id = method.id) := by
  rw [hm.methods_eq] at hmethod
  obtain ⟨d, hd, hcategory, rfl⟩ := Model.mem_methods_ofDefinitions hmethod
  obtain ⟨first, hfirst, hown⟩ := hm.exists_standsFor hds sources hd
  have htag : (Method.ofDefinition d).tag = d.tag := by
    simp only [Method.tag, Method.ofDefinition, Definition.tag]
  rw [← htag] at hfirst
  refine ⟨first, hfirst, fun hfunctions => ?_⟩
  rw [hown (hfunctions.trans hcategory.symm), Method.ofDefinition]

/-! ## Generated code -/

/-- What the stub of a method writes for its tag: every value of the constant that it streams first,
as a word. -/
def Method.tagBytes (config : Config) (lines : List String) (method : Method) : List Bytes :=
  let streams := Emit.requestStreams config.sources config.sender method fun _ => 0
  (streams.head?.toList.flatMap fun t => Emit.valuesIn t.member lines).map Wire.wordBytes

/-- Lines of constants define what the code of the selected types and methods goes by. The constant
of a constructor or a method has its own id, unless an earlier definition of the other category has
the same tag; and the tag that a stub writes is that of the request exactly when it has. -/
structure Selection.DefinedBy (selection : Selection) (ds : List Definition) (m : Model)
    (config : Config) (lines : List String) : Prop where
  types : ∀ t ∈ selection.types, t.GoesByTags ∧ ∀ c ∈ t.constructors, ∃ first : Definition,
    first.StandsFor ds lines c.tag ∧ (first.category = .types → first.id = c.id)
  methods : ∀ method ∈ selection.methods, method.GoesByTag config ∧ ∃ first : Definition,
    first.StandsFor ds lines method.tag ∧ (first.category = .functions → first.id = method.id) ∧
      ∀ (arguments : List (String × Option Value)) (bytes : Bytes),
        m.encodeRequest method.name arguments = .ok bytes →
          (method.tagBytes config lines = [bytes.take 4] ↔ first.id = method.id)

theorem Method.tagBytes_eq (config : Config) {lines : List String} {method : Method}
    {first : Definition} (h : first.StandsFor ds lines method.tag) :
    method.tagBytes config lines = [Wire.wordBytes first.id] := by
  simp [tagBytes, (method.goesByTag config).streams, h.values_eq]

/-- A request starts with the id of its method. -/
theorem Model.Derived.take_of_encodeRequest (hm : m.Derived ds) {method : Method}
    (hmethod : method ∈ m.methods) {arguments : List (String × Option Value)} {bytes : Bytes}
    (h : m.encodeRequest method.name arguments = .ok bytes) :
    bytes.take 4 = Wire.wordBytes method.id := by
  simp only [Model.encodeRequest, Model.findMethod_eq_ok hm.nodup_method_names hmethod, bind_eq_ok,
    pure_eq_ok, Except.ok.injEq] at h
  obtain ⟨_, rfl, fields, -, rfl⟩ := h
  exact List.take_left' (Wire.length_littleEndian 4 _)

/-- Each constant is defined by one line of its section, as the id of the first definition that has
it. A section for a text schema has the lines of its text. -/
theorem Model.Derived.exists_definedBy (hds : Parsed ds) (hm : m.Derived ds) {config : Config}
    {prior : Prior} {g : Generated} (hg : generate m config prior = .ok g) :
    ∃ selection lines, m.select config = .ok selection ∧ g = selection.render m config prior ∧
      g .values = String.join (lines.map (· ++ "\n")) ∧
      (∀ text, readSchema text = .ok ds → ∀ line ∈ lines, '\n' ∉ line.toList) ∧
      selection.DefinedBy ds m config lines := by
  obtain ⟨selection, hselect, rfl⟩ := map_eq_ok.mp hg
  refine ⟨selection, (Emit.valuesCode config.sources m).statements, hselect, rfl,
    Emit.text_valuesCode _ _, fun text htext => ?_, ?_, ?_⟩
  · have hunbroken := hm.unbroken (unbroken_of_readSchema htext)
    exact fun line => Emit.newline_notMem_of_mem_statements (Emit.punctuated_valuesCode _ hunbroken)
  · intro t ht
    have hmem := (((Model.selected_of_select hselect).mem_types hm.nodup_type_names).mp ht).mem
    exact ⟨TaggedType.goesByTags (hm.nodup_constructor_tags t hmem),
      fun c hc => hm.exists_standsFor_constructor hds config.sources hmem hc⟩
  · intro method hmethod
    have hmem : method ∈ m.methods := by
      rw [methods_of_select hselect] at hmethod
      exact List.mem_of_mem_filter hmethod
    obtain ⟨first, hfirst, hown⟩ := hm.exists_standsFor_method hds config.sources hmem
    refine ⟨method.goesByTag config, first, hfirst, hown, fun arguments bytes h => ?_⟩
    rw [Method.tagBytes_eq config hfirst, hm.take_of_encodeRequest hmem h, List.singleton_inj,
      Wire.wordBytes_inj]

/-- A method with an argument. -/
def pingText : String := "pong#5 n:int = Pong;\n---functions---\nauth.ping#7 n:int = Pong;"

def pingModel : Model := buildModel {} (definitionsOf pingText)

/-- The stub of the method writes the tag of the request. -/
theorem exists_definedBy_ping : ∃ g lines, generate pingModel {} Prior.empty = .ok g ∧
    g .values = String.join (lines.map (· ++ "\n")) ∧
    Emit.valuesIn "TLValue::AuthPing" lines = [7] ∧
    ∃ method ∈ pingModel.methods, method.name = "authPing" ∧
      ∃ bytes, pingModel.encodeRequest "authPing" [("n", some (.int 1))] = .ok bytes ∧
        method.tagBytes {} lines = [bytes.take 4] := by
  have hrun : (readSchema pingText).isOk ∧ (pingModel.select {}).isOk ∧
      (∃ method ∈ pingModel.methods, ({} : Config).allows method ∧ method.name = "authPing" ∧
        method.tag = "AuthPing" ∧ method.id = 7) ∧
      (pingModel.encodeRequest "authPing" [("n", some (.int 1))]).isOk ∧
      ∀ first ∈ (definitionsOf pingText).find? (·.tag == "AuthPing"),
        first.category = .functions := by
    decide +kernel
  obtain ⟨hread, hselect, ⟨method, hmethod, hallows, hname, htag, hid⟩, hwrite, hfirst⟩ := hrun
  have hds : Parsed (definitionsOf pingText) :=
    .inl ⟨pingText, readSchema_eq_ok_definitionsOf hread⟩
  have hm : Model.Derived (definitionsOf pingText) pingModel := Model.derived_buildModel {} _
  obtain ⟨selection, hselection⟩ := exists_of_isOk hselect
  obtain ⟨bytes, hbytes⟩ := exists_of_isOk hwrite
  have hg : generate pingModel {} Prior.empty = .ok (selection.render pingModel {} Prior.empty) :=
    map_eq_ok.mpr ⟨selection, hselection, rfl⟩
  obtain ⟨selection', lines, hselection', -, hvalues, -, hdefined⟩ := hm.exists_definedBy hds hg
  have hselected : method ∈ selection'.methods := by
    rw [methods_of_select hselection']
    exact List.mem_filter.mpr ⟨hmethod, hallows⟩
  obtain ⟨-, first, hstands, hown, hrequests⟩ := hdefined.methods method hselected
  have hcategory := hfirst first (htag ▸ hstands.find_eq)
  refine ⟨_, lines, hg, hvalues, ?_, method, hmethod, hname, bytes, hbytes, ?_⟩
  · have hvalue := hstands.values_eq
    rwa [htag, hown hcategory, hid] at hvalue
  · exact (hrequests _ bytes (by rw [hname]; exact hbytes)).mpr (hown hcategory)

/-- A constructor and a method of one name. -/
def echoText : String := "auth.ping#1 = Bool;\n---functions---\nauth.ping#2 = Bool;"

def echoModel : Model := buildModel {} (definitionsOf echoText)

/-- A listing with two constructors, one of them with a line feed in its name. -/
def foldedListing : List UInt8 :=
  ["[[[\"1\",\"a\",[],\"A\"],", "[\"2\",\"b,\\nA\",[],\"A\"]]]"].flatMap fun part =>
    part.toList.map fun c => UInt8.ofNat c.toNat

/-- The method has the id of the constructor in its constant, and a line feed in a name makes two
lines of one. -/
theorem constants_echo :
    (∃ g, generate echoModel {} Prior.empty = .ok g ∧ g .values = "AuthPing = 0x00000001,\n" ∧
      ∃ method ∈ echoModel.methods, ({} : Config).allows method ∧ method.name = "authPing" ∧
        method.tagBytes {} ["AuthPing = 0x00000001,"] = [Wire.wordBytes 1] ∧
        echoModel.encodeRequest "authPing" [] = .ok (Wire.wordBytes 2)) ∧
    ∃ ds g, readListing foldedListing = .ok ds ∧
      generate (buildModel {} ds) {} Prior.empty = .ok g ∧
      g .values = "A = 0x00000001,\nB,\nA = 0x00000002,\n" ∧
      Emit.valuesIn "TLValue::A" ["A = 0x00000001,", "B,", "A = 0x00000002,"] = [1, 2] := by
  have hgenerate : ∀ {m : Model} {values : String}, (m.select {}).isOk →
      (Emit.valuesCode false m).text = values →
      ∃ g, generate m {} Prior.empty = .ok g ∧ g .values = values := by
    intro m values hselect hvalues
    obtain ⟨selection, hselection⟩ := exists_of_isOk hselect
    exact ⟨_, map_eq_ok.mpr ⟨selection, hselection, rfl⟩, hvalues⟩
  constructor
  · have hrun : (echoModel.select {}).isOk ∧
        (Emit.valuesCode false echoModel).text = "AuthPing = 0x00000001,\n" ∧
        (∃ method ∈ echoModel.methods, ({} : Config).allows method ∧ method.name = "authPing" ∧
          method.tagBytes {} ["AuthPing = 0x00000001,"] = [Wire.wordBytes 1]) ∧
        echoModel.encodeRequest "authPing" [] = .ok (Wire.wordBytes 2) := by
      decide +kernel
    obtain ⟨hselect, hvalues, ⟨method, hmethod, hallows, hname, htag⟩, hrequest⟩ := hrun
    obtain ⟨g, hg, htext⟩ := hgenerate hselect hvalues
    exact ⟨g, hg, htext, method, hmethod, hallows, hname, htag, hrequest⟩
  · have hrun : (readListing foldedListing).isOk ∧
        ∀ ds ∈ (readListing foldedListing).toOption, ((buildModel {} ds).select {}).isOk ∧
          (Emit.valuesCode false (buildModel {} ds)).text =
            "A = 0x00000001,\nB,\nA = 0x00000002,\n" := by
      decide +kernel
    obtain ⟨hread, hmodel⟩ := hrun
    obtain ⟨ds, hds⟩ := exists_of_isOk hread
    obtain ⟨hselect, hvalues⟩ := hmodel ds (by rw [hds]; rfl)
    obtain ⟨g, hg, htext⟩ := hgenerate hselect hvalues
    exact ⟨ds, g, hds, hg, htext, by decide +kernel⟩

end TypeLang
