import Mathlib.Data.List.Forall2
import TypeLang.Proofs.Json.Written
import TypeLang.Proofs.Success
import TypeLang.Schema.Listing

/-!
# Reformatted listings

A listing that is written anew, with ordered records, has the same definitions. The readers of its
parts are followed side by side on the document and on what is written for its content: declared
fields are given once, so that the order of entries does not matter to them, and repeated fields
are not declared.
-/
namespace TypeLang

open Json

namespace Listing

variable {α : Type} {node node' : Node} {declared : List String} {items items' : List Node}

/-- A document is written for what another one says. -/
def Restates (node node' : Node) : Prop :=
  ∃ depth data, Data.ofNode? depth node = some data ∧ data.ReadsBack ∧ data.toNode = node'

/-- What is read from a document is also read from the one that restates it. -/
def KeepsMeaning (read? : Node → Option α) : Prop :=
  ∀ {node node' a}, Restates node node' → read? node = some a → read? node' = some a

/-! ## Texts, ids and lists -/

/-- Texts mean the same when they are written again. -/
theorem keepsMeaning_text? : KeepsMeaning text? := by
  rintro node _ s ⟨depth, data, hdata, -, rfl⟩ hread
  cases node with
  | text quoted =>
    rw [text?] at hread
    rw [Data.ofNode?, hread] at hdata
    cases hdata
    exact Quoted.text?_ofText s
  | _ => cases hread

/-- Ids mean the same when they are written again. -/
theorem keepsMeaning_id? : KeepsMeaning id? := by
  rintro node _ id ⟨depth, data, hdata, hback, rfl⟩ hread
  cases node with
  | text quoted =>
    rw [id?] at hread
    obtain ⟨s, hs, rfl⟩ := Option.map_eq_some_iff.mp hread
    rw [Data.ofNode?, hs] at hdata
    cases hdata
    rw [Data.toNode, id?, Quoted.text?_ofText, Option.map_some]
  | number numeral =>
    rw [id?] at hread
    obtain ⟨i, hfilter, rfl⟩ := Option.map_eq_some_iff.mp hread
    have hinteger := (Option.filter_eq_some_iff.mp hfilter).1
    rw [Data.ofNode?, Numeral.number?_eq_integer_iff.mpr hinteger] at hdata
    cases hdata
    cases hback with
    | number hback =>
      obtain ⟨written, hwritten, hnumber⟩ := Option.bind_eq_some_iff.mp hback.read
      have hwritten' := (Numeral.number?_eq_integer_iff.mp hnumber).trans hinteger.symm
      rw [Data.toNode, hwritten, Option.getD_some, id?, hwritten', hfilter, Option.map_some]
  | _ => cases hread

theorem forall₂_restates {depth : Nat} {contents : List Data}
    (h : Data.ofItems? depth items = some contents)
    (hback : ∀ content ∈ contents, content.ReadsBack) :
    List.Forall₂ Restates items (Data.itemNodes contents) := by
  induction items generalizing contents with
  | nil =>
    cases h
    exact .nil
  | cons item items ih =>
    simp only [Data.ofItems?, Option.bind_eq_bind, Option.bind_eq_some_iff, Option.pure_def,
      Option.some.injEq] at h
    obtain ⟨content, hcontent, contents, hcontents, rfl⟩ := h
    obtain ⟨hfirst, hothers⟩ := List.forall_mem_cons.mp hback
    exact .cons ⟨depth, content, hcontent, hfirst, rfl⟩ (ih hcontents hothers)

/-- A list is restated item by item. -/
theorem Restates.exists_items (h : Restates (.list items) node') :
    ∃ items', node' = .list items' ∧ List.Forall₂ Restates items items' := by
  obtain ⟨depth, data, hdata, hback, rfl⟩ := h
  cases depth with
  | zero => cases hdata
  | succ depth =>
    rw [Data.ofNode?] at hdata
    obtain ⟨contents, hcontents, rfl⟩ := Option.map_eq_some_iff.mp hdata
    cases hback with
    | list hback =>
      rw [Data.toNode]
      exact ⟨_, rfl, forall₂_restates hcontents hback⟩

theorem mapM_restates {item? : Node → Option α} (hitem : KeepsMeaning item?) {as : List α}
    (h : List.Forall₂ Restates items items') (hread : items.mapM item? = some as) :
    items'.mapM item? = some as := by
  induction h generalizing as with
  | nil => exact hread
  | cons hfirst _ ih =>
    simp only [List.mapM_cons, Option.bind_eq_bind, Option.bind_eq_some_iff, Option.pure_def,
      Option.some.injEq] at hread
    obtain ⟨a, ha, as, has, rfl⟩ := hread
    rw [List.mapM_cons, hitem hfirst ha, ih has]
    rfl

/-- A list means the same when its items do. -/
theorem keepsMeaning_list? {item? : Node → Option α} (hitem : KeepsMeaning item?) :
    KeepsMeaning (list? item?) := by
  intro node node' as h hread
  cases node with
  | list items =>
    obtain ⟨items', rfl, hitems⟩ := h.exists_items
    exact mapM_restates hitem hitems hread
  | _ => cases hread

theorem optionalList?_restates {item? : Node → Option α} (hitem : KeepsMeaning item?)
    {node? node?' : Option Node} (h : Option.Rel Restates node? node?') {as : List α}
    (hread : optionalList? item? node? = some as) : optionalList? item? node?' = some as := by
  cases h with
  | none => exact hread
  | some h => exact keepsMeaning_list? hitem h hread

/-! ## Fields -/

/-- Entries by the texts of their keys. -/
def keyed? (entries : List (Quoted × Node)) : Option (List (String × Node)) :=
  entries.mapM fun entry => entry.1.text?.map fun key => (key, entry.2)

variable {depth : Nat} {keyed : List (String × Node)} {contents : List (String × Data)}

/-- A node and what it says, under one key. -/
def IsContent (depth : Nat) (entry : String × Node) (content : String × Data) : Prop :=
  entry.1 = content.1 ∧ Data.ofNode? depth entry.2 = some content.2

theorem forall₂_isContent {entries : List (Quoted × Node)} (hkeyed : keyed? entries = some keyed)
    (hcontents : Data.ofRecord? depth entries = some contents) :
    List.Forall₂ (IsContent depth) keyed contents := by
  induction entries generalizing keyed contents with
  | nil =>
    cases hkeyed
    cases hcontents
    exact .nil
  | cons entry entries ih =>
    simp only [keyed?, List.mapM_cons, Option.bind_eq_bind, Option.bind_eq_some_iff,
      Option.map_eq_some_iff, Option.pure_def, Option.some.injEq] at hkeyed
    simp only [Data.ofRecord?, Option.bind_eq_bind, Option.bind_eq_some_iff, Option.pure_def,
      Option.some.injEq] at hcontents
    obtain ⟨_, ⟨key, hkey, rfl⟩, others, hothers, rfl⟩ := hkeyed
    obtain ⟨key', hkey', content, hcontent, contents, hcontents, rfl⟩ := hcontents
    exact .cons ⟨Option.some.inj (hkey.symm.trans hkey'), hcontent⟩ (ih hothers hcontents)

theorem countP_isContent (h : List.Forall₂ (IsContent depth) keyed contents) (name : String) :
    keyed.countP (fun entry => entry.1 == name) =
      contents.countP fun content => content.1 == name := by
  induction h with
  | nil => rfl
  | cons hfirst _ ih => rw [List.countP_cons, List.countP_cons, ih, hfirst.1]

/-- A key is looked up alike among nodes and contents. -/
theorem lookup_isContent (h : List.Forall₂ (IsContent depth) keyed contents) (name : String) :
    Option.Rel (fun node data => Data.ofNode? depth node = some data) (keyed.lookup name)
      (contents.lookup name) := by
  induction h with
  | nil => exact .none
  | @cons entry content _ _ hfirst _ ih =>
    obtain ⟨key, node⟩ := entry
    obtain ⟨key', data⟩ := content
    obtain ⟨rfl, hdata⟩ := hfirst
    rw [Data.lookup_cons_eq_if, Data.lookup_cons_eq_if]
    split
    · exact .some hdata
    · exact ih

/-- What is written for entries, by their keys. -/
def restated (contents : List (String × Data)) : List (String × Node) :=
  contents.map fun content => (content.1, content.2.toNode)

theorem keyed?_entryNodes (contents : List (String × Data)) :
    keyed? (Data.entryNodes contents) = some (restated contents) := by
  induction contents with
  | nil => rfl
  | cons content contents ih =>
    rw [keyed?] at ih
    rw [Data.entryNodes, keyed?, List.mapM_cons, ih, Quoted.text?_ofText]
    rfl

theorem lookup_restated (contents : List (String × Data)) (name : String) :
    (restated contents).lookup name = (contents.lookup name).map Data.toNode := by
  induction contents with
  | nil => rfl
  | cons content contents ih =>
    obtain ⟨key, data⟩ := content
    rw [restated, List.map_cons, Data.lookup_cons_eq_if, Data.lookup_cons_eq_if, ← restated, ih]
    split <;> rfl

/-- A field that is given once restates itself in the ordered record. -/
theorem lookup_restates (h : List.Forall₂ (IsContent depth) keyed contents)
    (hback : ∀ content ∈ Data.ofEntries contents, content.2.ReadsBack) {name : String}
    (hunique : keyed.countP (fun entry => entry.1 == name) ≤ 1) :
    Option.Rel Restates (keyed.lookup name)
      ((restated (Data.ofEntries contents)).lookup name) := by
  have hlookup : (Data.ofEntries contents).lookup name = contents.lookup name := by
    rw [Data.lookup_ofEntries, Data.lookup_reverse (countP_isContent h name ▸ hunique)]
  have hrel := lookup_isContent h name
  rw [lookup_restated]
  rw [← hlookup] at hrel
  generalize keyed.lookup name = node? at hrel ⊢
  cases hdata : (Data.ofEntries contents).lookup name with
  | none =>
    rw [hdata] at hrel
    cases hrel
    exact .none
  | some data =>
    rw [hdata] at hrel
    cases hrel with
    | some hread =>
      obtain ⟨front, back, hcontents, -⟩ := List.lookup_eq_some_iff.mp hdata
      have hmem : (name, data) ∈ Data.ofEntries contents := by simp [hcontents]
      exact .some ⟨depth, data, hread, hback _ hmem, rfl⟩

theorem fields?_record (declared : List String) (entries : List (Quoted × Node)) :
    fields? declared (.record entries) = (keyed? entries).bind fun keyed =>
      if declared.all fun name => decide (keyed.countP (fun entry => entry.1 == name) ≤ 1) then
        some (declared.map fun name => keyed.lookup name)
      else none := rfl

/-- A record is restated with the last value of each key, in the order of the keys. -/
theorem Restates.exists_contents {entries : List (Quoted × Node)}
    (h : Restates (.record entries) node') : ∃ depth contents,
      node' = .record (Data.entryNodes (Data.ofEntries contents)) ∧
        Data.ofRecord? depth entries = some contents ∧
        ∀ content ∈ Data.ofEntries contents, content.2.ReadsBack := by
  obtain ⟨depth, data, hdata, hback, rfl⟩ := h
  cases depth with
  | zero => cases hdata
  | succ depth =>
    rw [Data.ofNode?] at hdata
    obtain ⟨contents, hcontents, rfl⟩ := Option.map_eq_some_iff.mp hdata
    cases hback with
    | record hback =>
      rw [Data.toNode]
      exact ⟨depth, contents, rfl, hcontents, hback⟩

/-- The ordered record has the declared fields that the record has. -/
theorem fields?_restates {values : List (Option Node)} (h : Restates node node')
    (hread : fields? declared node = some values) : ∃ values',
      fields? declared node' = some values' ∧
        List.Forall₂ (Option.Rel Restates) values values' := by
  cases node with
  | list items =>
    obtain ⟨items', rfl, hitems⟩ := h.exists_items
    rw [fields?] at hread ⊢
    rw [← hitems.length_eq]
    split at hread
    · next hle =>
      cases hread
      rw [if_pos hle]
      refine ⟨_, rfl, List.rel_append ?_ ?_⟩
      · rw [List.forall₂_map_left_iff, List.forall₂_map_right_iff]
        exact hitems.imp fun _ _ => .some
      · rw [List.forall₂_same]
        intro value hvalue
        rw [List.eq_of_mem_replicate hvalue]
        exact .none
    · cases hread
  | record entries =>
    obtain ⟨depth, contents, rfl, hcontents, hback⟩ := h.exists_contents
    rw [fields?_record, Option.bind_eq_some_iff] at hread
    obtain ⟨keyed, hkeyed, hread⟩ := hread
    split at hread
    · next hunique =>
      cases hread
      -- No key of the ordered record is repeated, declared or not.
      have hordered : declared.all fun name => decide
          ((restated (Data.ofEntries contents)).countP (fun entry => entry.1 == name) ≤ 1) := by
        rw [List.all_eq_true]
        intro name _
        rw [decide_eq_true_eq, restated, List.countP_map]
        exact (Data.isOrdered_ofEntries contents).countP_le_one name
      rw [fields?_record, keyed?_entryNodes, Option.bind_some, if_pos hordered]
      refine ⟨_, rfl, ?_⟩
      rw [List.forall₂_map_left_iff, List.forall₂_map_right_iff, List.forall₂_same]
      intro name hname
      have honce := of_decide_eq_true (List.all_eq_true.mp hunique name hname)
      exact lookup_restates (forall₂_isContent hkeyed hcontents) hback honce
    · cases hread
  | _ => cases hread

/-! ## Records -/

/-- What is made of the declared fields is made of the restated fields. -/
theorem keepsMeaning_fields {make : List (Option Node) → Option α}
    (h : ∀ {values values' a}, List.Forall₂ (Option.Rel Restates) values values' →
      make values = some a → make values' = some a) :
    KeepsMeaning fun node => (fields? declared node).bind make := by
  intro node node' a hnode hread
  obtain ⟨values, hvalues, hmake⟩ := Option.bind_eq_some_iff.mp hread
  obtain ⟨values', hvalues', hrel⟩ := fields?_restates hnode hvalues
  exact Option.bind_eq_some_iff.mpr ⟨values', hvalues', h hrel hmake⟩

theorem keepsMeaning_parameter? : KeepsMeaning parameter? := by
  refine keepsMeaning_fields fun hrel hread => ?_
  split at hread
  · next name type =>
    simp only [Option.bind_eq_bind, Option.bind_eq_some_iff, Option.pure_def,
      Option.some.injEq] at hread
    obtain ⟨nameText, hname, typeText, htype, rfl⟩ := hread
    rcases hrel with - | ⟨⟨hnames⟩, - | ⟨⟨htypes⟩, ⟨⟩⟩⟩
    simp [keepsMeaning_text? hnames hname, keepsMeaning_text? htypes htype]
  · cases hread

/-- An entry means the same when it is written again. -/
theorem keepsMeaning_listed? (nameField : String) : KeepsMeaning (listed? nameField) := by
  refine keepsMeaning_fields fun hrel hread => ?_
  split at hread
  · next id name parameters type =>
    simp only [Option.bind_eq_bind, Option.bind_eq_some_iff, Option.pure_def,
      Option.some.injEq] at hread
    obtain ⟨listedId, hid, nameText, hname, listed, hparameters, typeText, htype, rfl⟩ := hread
    rcases hrel with - | ⟨⟨hids⟩, - | ⟨⟨hnames⟩, - | ⟨hlists, - | ⟨⟨htypes⟩, ⟨⟩⟩⟩⟩⟩
    simp [keepsMeaning_id? hids hid, keepsMeaning_text? hnames hname,
      keepsMeaning_text? htypes htype,
      optionalList?_restates keepsMeaning_parameter? hlists hparameters]
  · cases hread

/-- A listing means the same when it is written again. -/
theorem keepsMeaning_ofNode? : KeepsMeaning ofNode? := by
  refine keepsMeaning_fields fun hrel hread => ?_
  split at hread
  · next constructors methods =>
    simp only [Option.bind_eq_bind, Option.bind_eq_some_iff, Option.pure_def,
      Option.some.injEq] at hread
    obtain ⟨listed, hconstructors, listed', hmethods, rfl⟩ := hread
    rcases hrel with - | ⟨hfirst, - | ⟨hsecond, ⟨⟩⟩⟩
    simp [optionalList?_restates (keepsMeaning_listed? "predicate") hfirst hconstructors,
      optionalList?_restates (keepsMeaning_listed? "method") hsecond hmethods]
  · cases hread

/-! ## Formatting -/

/-- A document whose numbers are all integer literals in range is written anew in its final form,
and keeps its definitions. -/
theorem format?_stable {bytes : List UInt8} {tokens : List Token} {text : String}
    (hscan : Token.ofBytes? bytes = some tokens)
    (hinteger : ∀ numeral, .number numeral ∈ tokens → numeral.IsInteger)
    (hformat : format? bytes = some text) :
    format? (Text.Utf8.encode text) = some text ∧
      ∀ ds, readListing bytes = .ok ds → readListing (Text.Utf8.encode text) = .ok ds := by
  simp only [format?, Data.read?, Option.map_eq_some_iff, Option.bind_eq_some_iff] at hformat
  obtain ⟨data, ⟨node, hnode, hdata⟩, rfl⟩ := hformat
  have htokens : tokens = node.tokens := by
    rw [Node.read?, hscan, Option.bind_some] at hnode
    exact Node.ofTokens?_eq_some_iff.mp hnode
  have hback : data.ReadsBack :=
    Data.readsBack_of_isInteger hdata fun numeral h => hinteger numeral (htokens ▸ h)
  have hread : Node.read? (Text.Utf8.encode (String.ofList (data.write 0 ++ ['\n']))) =
      some data.toNode := Data.read?_documentBytes hback
  constructor
  · rw [format?, Data.read?, hread, Option.bind_some, Data.ofNode?_toNode hdata hback]
    rfl
  · intro ds hds
    rw [readListing, hnode, Option.bind_some] at hds
    rw [readListing, hread, Option.bind_some]
    cases hlisting : ofNode? node with
    | none =>
      rw [hlisting] at hds
      cases hds
    | some listing =>
      rw [hlisting] at hds
      rw [keepsMeaning_ofNode? ⟨_, data, hdata, hback, rfl⟩ hlisting]
      exact hds

/-- The numbers among tokens. -/
def numerals (tokens : List Token) : List Numeral :=
  tokens.filterMap fun
    | .number numeral => some numeral
    | _ => none

/-- A document with a repeated field and fields out of order. -/
def looseDocument : List UInt8 := Text.Utf8.encode
  ("\x7b\"layer\":[],\"methods\":[],\"\\u006cayer\":-0," ++
    "\"constructors\":[\x7b\"type\":\"A\",\"id\":-7,\"predicate\":\"a\\/b\"\x7d]\x7d")

/-- The lines that are written for it. -/
def looseDocumentLines : List String :=
  ["\x7b",
    "  \"constructors\": [",
    "    \x7b",
    "      \"id\": -7,",
    "      \"predicate\": \"a/b\",",
    "      \"type\": \"A\"",
    "    \x7d",
    "  ],",
    "  \"layer\": -0.0,",
    "  \"methods\": []",
    "\x7d\n"]

/-- A document with escapes, a repeated key and minus zero. -/
theorem format?_stable_looseDocument : ∃ text ds,
    text = "\n".intercalate looseDocumentLines ∧ format? looseDocument = some text ∧
      format? (Text.Utf8.encode text) = some text ∧ ds.map (·.text) = ["a/b#fffffff9 = A;"] ∧
      readListing looseDocument = .ok ds ∧ readListing (Text.Utf8.encode text) = .ok ds := by
  have hformat : format? looseDocument = some ("\n".intercalate looseDocumentLines) := by
    decide +kernel
  have hlisting : (readListing looseDocument).map (List.map (·.text)) =
      .ok ["a/b#fffffff9 = A;"] := by decide +kernel
  obtain ⟨ds, hds, htexts⟩ := map_eq_ok.mp hlisting
  have hnumerals : (Token.ofBytes? looseDocument).map numerals =
      some [⟨true, [0], [], none⟩, ⟨true, [7], [], none⟩] := by decide +kernel
  obtain ⟨tokens, hscan, hnumerals⟩ := Option.map_eq_some_iff.mp hnumerals
  have hinteger : ∀ numeral, .number numeral ∈ tokens → numeral.IsInteger := by
    intro numeral hmem
    have hmem : numeral ∈ numerals tokens := List.mem_filterMap.mpr ⟨_, hmem, rfl⟩
    rw [hnumerals] at hmem
    rcases List.mem_cons.mp hmem with rfl | hmem
    · exact ⟨rfl, rfl, by decide, by decide⟩
    · rw [List.mem_singleton.mp hmem]
      exact ⟨rfl, rfl, by decide, by decide⟩
  obtain ⟨hstable, hkeeps⟩ := format?_stable hscan hinteger hformat
  exact ⟨_, ds, rfl, hformat, hstable, htexts, hds, hkeeps ds hds⟩

end Listing

end TypeLang
