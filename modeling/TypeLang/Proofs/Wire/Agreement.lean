import TypeLang.Proofs.Wire.Renaming

/-!
# Agreement on the wire

A model and a redraft of it read and write the same bytes. Whatever the fields are called, the gate
of a field looks up the same bit of the same word, and pointers are looked through, so both models
read the same parts of an input and write the same parts of an object. The induction goes along the
depth of objects for reading, and along the value for writing.
-/
namespace TypeLang

/-- The error without the text that it has from the model. -/
def WireError.kind : WireError → WireError
  | .missingField _ => .missingField ""
  | .typeMismatch _ => .typeMismatch ""
  | e => e

namespace Wire

variable {m m' : Model}

/-! ## Reading -/

theorem readItems_map {α β : Type} (g : α → β) (item : Reader α) (n : Nat) :
    readItems (g <$> item) n = List.map g <$> readItems item n := by
  induction n with
  | zero => rfl
  | succ n ih => simp [readItems, ih]

theorem readValue_direct (object : String → Reader Value) (type : TargetType) :
    readValue object type.direct = readValue object type := by
  induction type with
  | pointer target ih => rw [readValue, ← ih, TargetType.direct]
  | vector item ih => rw [TargetType.direct, readValue, readValue, ih]
  | plain name => rfl

/-- Values are read under other names where objects are. -/
theorem readValue_map {object object' : String → Reader Value}
    (h : ∀ name, object' name = (m.renameValue m' · (.plain name)) <$> object name)
    (type : TargetType) :
    readValue object' type = (m.renameValue m' · type) <$> readValue object type := by
  induction type with
  | pointer target ih =>
    rw [readValue, readValue, ih]
    simp only [Model.renameValue_pointer]
  | vector item ih =>
    have hvector : ∀ items, m.renameValue m' (.vector items) (.vector item) = _ :=
      Model.renameValue_vector rfl
    rw [readValue, readValue, ih]
    simp [readItems_map, hvector]
  | plain name =>
    have hprimitive : ∀ {α : Type} (r : Reader α) (wrap : α → Value),
        (∀ a, m.renameValue m' (wrap a) (.plain name) = wrap a) →
        (do return wrap (← r)) =
          (m.renameValue m' · (.plain name)) <$> (do return wrap (← r)) := by
      intro α r wrap hwrap
      simp [hwrap]
    rw [readValue.eq_def, readValue.eq_def]
    split
    · contradiction
    · contradiction
    · exact hprimitive readBool .bool fun b => Model.renameValue_of_primitive nofun nofun
    · exact hprimitive readWord .int fun b => Model.renameValue_of_primitive nofun nofun
    · exact hprimitive readLong .long fun b => Model.renameValue_of_primitive nofun nofun
    · exact hprimitive readLong .double fun b => Model.renameValue_of_primitive nofun nofun
    · exact hprimitive readString .string fun b => Model.renameValue_of_primitive nofun nofun
    · exact hprimitive readPayload .bytes fun b => Model.renameValue_of_primitive nofun nofun
    · exact hprimitive (readBlock 16) .int128 fun b => Model.renameValue_of_primitive nofun nofun
    · exact hprimitive (readBlock 32) .int256 fun b => Model.renameValue_of_primitive nofun nofun
    · next heq =>
      cases heq
      exact h name

section Fields

variable {fields : List Field} {step : Field → Field} {f : Field}
  {value value' : TargetType → Reader Value} {words words' : List (String × UInt32)}

/-- The words that are looked up in the one list are those that are looked up in the other. -/
def SameWords (fields : List Field) (step : Field → Field)
    (words words' : List (String × UInt32)) : Prop :=
  ∀ w ∈ fields, words'.lookup (step w).name = words.lookup w.name

theorem SameWords.cons (hwords : SameWords fields step words words')
    (h : Field.Faithful fields step) (hf : f ∈ fields) (word : UInt32) :
    SameWords fields step ((f.name, word) :: words) (((step f).name, word) :: words') := by
  intro w hw
  rw [List.lookup_cons, List.lookup_cons, h.name_beq hw hf, hwords w hw]

/-- A renamed field is read as the renamed value. -/
theorem readField_map (h : Field.Faithful fields step) (hf : f ∈ fields)
    (hwords : SameWords fields step words words')
    (hvalue : value' (step f).type = (m.renameValue m' · f.type) <$> value f.type) :
    readField value' words' (step f) =
      Option.map (m.renameValue m' · f.type) <$> readField value words f := by
  have hpayload : (do return some (← value' (step f).type)) =
      Option.map (m.renameValue m' · f.type) <$> (do return some (← value f.type)) := by
    simp [hvalue]
  have hmark := h.isMark h.gated hf
  rcases h.gate_cases h.gated hf with ⟨hgate, hgate'⟩ | ⟨w, hw, bit, hgate, hgate'⟩
  · simp only [readField, hgate, hgate']
    exact hpayload
  · have hopen : isOpen words' ⟨(step w).name, bit⟩ = isOpen words ⟨w.name, bit⟩ := by
      rw [isOpen, isOpen, hwords w hw]
    simp only [readField, hgate, hgate', hopen, hmark]
    split
    · rfl
    · split
      · have hset : m.renameValue m' (.bool true) f.type = .bool true :=
          Model.renameValue_of_primitive nofun nofun
        simp [hset]
      · exact hpayload

/-- Renamed fields are read as the renamed entries. -/
theorem readFields_map (h : Field.Faithful fields step)
    (hvalue : ∀ f ∈ fields, value' (step f).type = (m.renameValue m' · f.type) <$> value f.type)
    {todo : List Field} (htodo : todo ⊆ fields) (hwords : SameWords fields step words words') :
    readFields value' words' (todo.map step) =
      List.map (m.renameEntry m' fields (fields.map step)) <$> readFields value words todo := by
  induction todo generalizing words words' with
  | nil => rfl
  | cons f todo ih =>
    have hf : f ∈ fields := htodo List.mem_cons_self
    have htail : todo ⊆ fields := List.Subset.trans (List.subset_cons_self f todo) htodo
    rw [List.map_cons, readFields, readFields, h.isWord hf]
    split
    · rw [map_bind]
      congr 1
      funext word
      exact ih htail (hwords.cons h hf word)
    · rw [readField_map h hf hwords (hvalue f hf), ih htail hwords]
      simp [Model.renameEntry_of_mem h hf]

end Fields

theorem readObject_succ (m : Model) (depth : Nat) (name : String) :
    readObject m (depth + 1) name = do
      let id ← readWord
      match m.findConstructor name id with
      | .error e => throw e
      | .ok c => return .object id (← readFields (readValue (readObject m depth)) [] c.fields) := by
  rw [readObject]
  congr 1
  funext id
  simp only [Model.findConstructor]
  cases m.type? name with
  | none => rfl
  | some t =>
    simp only
    cases t.constructor? id <;> rfl

/-- A redraft reads the same objects, renamed. -/
theorem readObject_map (h : m.Redraft m') (hnames : m.DistinctMembers)
    (hnames' : m'.DistinctMembers) (depth : Nat) (name : String) :
    readObject m' depth name =
      (m.renameValue m' · (.plain name)) <$> readObject m depth name := by
  induction depth generalizing name with
  | zero => rfl
  | succ depth ih =>
    rw [readObject_succ, readObject_succ, map_bind]
    congr 1
    funext id
    rcases h.exists_faithful hnames hnames' name id with
      ⟨e, he, he'⟩ | ⟨c, c', step, hc, hc', hstep, heq⟩
    · simp only [he, he']
      rfl
    · have hvalue : ∀ f ∈ c.fields, readValue (readObject m' depth) (step f).type =
          (m.renameValue m' · f.type) <$> readValue (readObject m depth) f.type := by
        intro f hf
        rw [← readValue_direct, hstep.direct f hf, readValue_direct, readValue_map ih]
      have hstart : SameWords c.fields step [] [] := fun _ _ => rfl
      have hfields := readFields_map hstep hvalue (List.Subset.refl _) hstart
      have hobject : ∀ entries, m.renameValue m' (.object id entries) (.plain name) = _ :=
        fun _ => Model.renameValue_object rfl (Model.findConstructor_eq_ok_iff.mp hc)
          (Model.findConstructor_eq_ok_iff.mp hc')
      simp only [hc, hc']
      rw [heq, hfields]
      simp [hobject, heq]

/-! ## Writing -/

/-- The results are the same, or errors of the same kind. -/
def SameKind {α : Type} (x x' : Except WireError α) : Prop :=
  x'.mapError WireError.kind = x.mapError WireError.kind

section SameKind

variable {α β : Type} {x x' : Except WireError α} {f f' : α → Except WireError β}

theorem SameKind.refl (x : Except WireError α) : SameKind x x := rfl

theorem SameKind.bind (hx : SameKind x x') (hf : ∀ a, SameKind (f a) (f' a)) :
    SameKind (x >>= f) (x' >>= f') := by
  cases x with
  | error e =>
    cases x' with
    | error e' => exact congrArg Except.error (Except.error.inj hx)
    | ok a' => cases hx
  | ok a =>
    cases x' with
    | error e' => cases hx
    | ok a' =>
      obtain rfl : a' = a := Except.ok.inj hx
      exact hf a'

theorem sameKind_mapM {as : List α} {f' : β → Except WireError Bytes}
    {f : α → Except WireError Bytes} {g : α → β} (h : ∀ a ∈ as, SameKind (f a) (f' (g a))) :
    SameKind (as.mapM f) ((as.map g).mapM f') := by
  induction as with
  | nil => exact .refl _
  | cons a as ih =>
    rw [List.map_cons, List.mapM_cons, List.mapM_cons]
    refine (h a List.mem_cons_self).bind fun bytes => ?_
    exact (ih fun b hb => h b (List.mem_cons_of_mem _ hb)).bind fun _ => .refl _

end SameKind

section Fields

variable {fields : List Field} {step : Field → Field} {f : Field} {o : Object}

theorem field?_renameObject (h : Field.Faithful fields step)
    (ho : o.Within fields) (hf : f ∈ fields) :
    (m.renameObject m' fields (fields.map step) o).field? (step f).name =
      (o.field? f.name).map (m.renameValue m' · f.type) := by
  rcases o with ⟨id, entries⟩
  simp only [Object.field?, Model.renameObject]
  induction entries with
  | nil => rfl
  | cons entry entries ih =>
    rcases entry with ⟨name, value⟩
    obtain ⟨⟨g, hg, rfl⟩, htail⟩ := List.forall_mem_cons.mp ho
    rw [List.map_cons, Model.renameEntry_of_mem h hg, List.lookup_cons, List.lookup_cons,
      h.name_beq hf hg]
    cases hname : f.name == g.name with
    | true =>
      obtain rfl := h.eq_of_name hf hg (beq_iff_eq.mp hname)
      cases value <;> rfl
    | false => exact ih htail

/-- A renamed field is present in the renamed object when the field is in the object. -/
theorem has_renameObject (h : Field.Faithful fields step)
    (ho : o.Within fields) (hf : f ∈ fields) :
    (m.renameObject m' fields (fields.map step) o).has (step f) = o.has f := by
  have hfield : (m.renameObject m' fields (fields.map step) o).field? (step f).name = _ :=
    field?_renameObject h ho hf
  cases hsupplied : o.field? f.name with
  | none =>
    rw [hsupplied] at hfield
    simp only [Object.has, hsupplied, hfield, Option.map_none]
  | some v =>
    rw [hsupplied, Option.map_some] at hfield
    rcases m.renameValue_eq_or m' v f.type with hsame | ⟨hv, hrenamed⟩
    · rw [hsame] at hfield
      simp only [Object.has, hsupplied, hfield, h.isMark h.gated hf]
    · rw [Object.has_of_ne_bool hsupplied hv, Object.has_of_ne_bool hfield hrenamed]

/-- Renaming keeps the flags words. -/
theorem flagsWord_renameObject (h : Field.Faithful fields step)
    (ho : o.Within fields) {w : Field} (hw : w ∈ fields) :
    (supply m' (m.renameObject m' fields (fields.map step) o).fields).flagsWord
        (fields.map step) (step w).name =
      (supply m o.fields).flagsWord fields w.name := by
  simp only [Supplied.flagsWord, List.foldl_map]
  refine List.foldl_ext _ _ _ fun bits f hf => ?_
  simp only [Supplied.bitOf, has_supply, has_renameObject h ho hf]
  rcases h.gate_cases h.gated hf with ⟨hgate, hgate'⟩ | ⟨v, hv, bit, hgate, hgate'⟩
  · simp only [hgate, hgate']
  · simp only [hgate, hgate', h.name_eq_iff hv hw]

/-- A renamed field is written alike. -/
theorem sameKind_encodeField (h : Field.Faithful fields step)
    (ho : o.Within fields) (hf : f ∈ fields)
    (hvalue : ∀ v, o.field? f.name = some v →
      SameKind (encodeValue m v f.type)
        (encodeValue m' (m.renameValue m' v f.type) (step f).type)) :
    SameKind ((supply m o.fields).encodeField fields f)
      ((supply m' (m.renameObject m' fields (fields.map step) o).fields).encodeField
        (fields.map step) (step f)) := by
  simp only [Supplied.encodeField, h.isWord hf, h.isMark h.gated hf, h.isSome_gate h.gated hf,
    has_supply, has_renameObject h ho hf, flagsWord_renameObject h ho hf,
    find?_supply, field?_renameObject h ho hf]
  split
  · exact .refl _
  · split
    · exact .refl _
    · cases hsupplied : o.field? f.name with
      | none => rfl
      | some v => exact hvalue v hsupplied

/-- Renamed fields are written alike. -/
theorem sameKind_encodeFields (h : Field.Faithful fields step)
    (ho : o.Within fields)
    (hvalue : ∀ f ∈ fields, ∀ v, o.field? f.name = some v →
      SameKind (encodeValue m v f.type)
        (encodeValue m' (m.renameValue m' v f.type) (step f).type)) :
    SameKind ((supply m o.fields).encodeFields fields)
      ((supply m' (m.renameObject m' fields (fields.map step) o).fields).encodeFields
        (fields.map step)) :=
  (sameKind_mapM fun f hf => sameKind_encodeField h ho hf (hvalue f hf)).bind
    fun _ => .refl _

end Fields

/-! ## Values -/

theorem encodeValue_object {type : TargetType} {name : String} {id : UInt32}
    {entries : List (String × Option Value)} (h : type.behindPointers = .plain name) :
    encodeValue m (.object id entries) type = do
      let c ← m.findConstructor name id
      return wordBytes id ++ (← (supply m entries).encodeFields c.fields) := by
  rw [encodeValue.eq_def]
  simp only [h, Model.findConstructor]
  cases m.type? name with
  | none => rfl
  | some t =>
    simp only
    cases t.constructor? id <;> rfl

theorem sameKind_encodeItems {items : List Value} {item item' : TargetType} {g : Value → Value}
    (h : ∀ v ∈ items, SameKind (encodeValue m v item) (encodeValue m' (g v) item')) :
    SameKind (encodeItems m items item) (encodeItems m' (items.map g) item') := by
  induction items with
  | nil => exact .refl _
  | cons v items ih =>
    rw [List.map_cons, encodeItems, encodeItems]
    refine (h v List.mem_cons_self).bind fun bytes => ?_
    exact (ih fun u hu => h u (List.mem_cons_of_mem _ hu)).bind fun _ => .refl _

/-- Numbers, texts and blocks are written alike in all models, or refused alike. -/
theorem encodeValue_of_primitive {v : Value} {type type' : TargetType}
    (hbase : type.behindPointers = type'.behindPointers)
    (hvector : ∀ item items, type.behindPointers = .vector item → v = .vector items → False)
    (hobject : ∀ name id entries, type.behindPointers = .plain name → v = .object id entries →
      False) : encodeValue m v type = encodeValue m' v type' := by
  rw [encodeValue.eq_def, encodeValue.eq_def]
  simp only [← hbase]
  split
  · next hbase => exact (hvector _ _ hbase rfl).elim
  · rfl
  · rfl
  · rfl
  · rfl
  · rfl
  · rfl
  · rfl
  · rfl
  · next hbase => exact (hobject _ _ _ hbase rfl).elim
  · rfl

/-- Nothing but a vector is written as one. -/
theorem encodeValue_of_ne_vector {v : Value} {type item : TargetType}
    (hbase : type.behindPointers = .vector item) (hv : ∀ items, v ≠ .vector items) :
    encodeValue m v type = .error (.typeMismatch (TargetType.vector item).text) := by
  rw [encodeValue.eq_def]
  simp only [hbase]
  cases v with
  | vector items => exact absurd rfl (hv items)
  | _ => rfl

/-- A value is written in one model as its renaming is in a redraft. -/
theorem sameKind_encodeValue (h : m.Redraft m') (hnames : m.DistinctMembers)
    (hnames' : m'.DistinctMembers) {v : Value} {type type' : TargetType}
    (htype : type.direct = type'.direct) (hv : m.declares v type) :
    SameKind (encodeValue m v type) (encodeValue m' (m.renameValue m' v type) type') := by
  induction v, type using Model.canonical.induct (m := m) generalizing type' with
  | case1 type item items hbase ih =>
    obtain ⟨item', hbase', hitem⟩ := TargetType.exists_behindPointers_eq_vector htype hbase
    rw [Model.renameValue_vector hbase, encodeValue_vector hbase, encodeValue_vector hbase',
      List.length_map]
    refine (sameKind_encodeItems fun u hu => ?_).bind fun _ => .refl _
    exact ih u hu hitem (Model.declares_vector hbase hv u hu)
  | case2 type name id entries hbase hnone =>
    have hbase' := TargetType.behindPointers_eq_plain htype hbase
    rcases h.exists_faithful hnames hnames' name id with ⟨e, he, he'⟩ | ⟨c, _, _, hc, -⟩
    · rw [Model.renameValue_object_of_none hbase hnone, encodeValue_object hbase,
        encodeValue_object hbase', he, he']
      exact .refl _
    · rw [Model.findConstructor_eq_ok_iff.mp hc] at hnone
      cases hnone
  | case3 type name id entries hbase c hc ih =>
    have hbase' := TargetType.behindPointers_eq_plain htype hbase
    have hfind := Model.findConstructor_eq_ok_iff.mpr hc
    obtain ⟨ho, hvalues⟩ := Model.declares_object hbase hc hv
    rcases h.exists_faithful hnames hnames' name id with
      ⟨e, he, -⟩ | ⟨b, c', step, hb, hc', hstep, heq⟩
    · rw [hfind] at he
      cases he
    · obtain rfl : c = b := Except.ok.inj (hfind.symm.trans hb)
      have hfields := sameKind_encodeFields (o := ⟨id, entries⟩) hstep ho fun f hf v hfield =>
        ih f v hfield (hstep.direct f hf).symm (hvalues f hf v hfield)
      rw [Model.renameValue_object hbase hc (Model.findConstructor_eq_ok_iff.mp hc'),
        encodeValue_object hbase, encodeValue_object hbase', hfind, hc']
      -- Behind the id of the constructor only the fields are left to write.
      change SameKind (do return wordBytes id ++ (← (supply m entries).encodeFields c.fields))
        (do return wordBytes id ++ (← (supply m' (entries.map _)).encodeFields c'.fields))
      rw [heq]
      exact hfields.bind fun _ => .refl _
  | case4 type v hvector hobject =>
    rw [Model.renameValue_of_primitive hvector hobject]
    rcases TargetType.behindPointers_cases htype with
      ⟨name, hbase, hbase'⟩ | ⟨item, item', hbase, hbase', -⟩
    · rw [encodeValue_of_primitive (hbase.trans hbase'.symm) hvector hobject]
      exact .refl _
    · have hkind : ∀ items, v ≠ .vector items := fun items => hvector item items hbase
      rw [encodeValue_of_ne_vector hbase hkind, encodeValue_of_ne_vector hbase' hkind]
      rfl

end Wire

namespace Model

variable {m m' : Model}

/-- A redraft reads the same bytes as the same values, renamed. -/
theorem Redraft.read_eq (h : m.Redraft m') (hnames : m.DistinctMembers)
    (hnames' : m'.DistinctMembers) (type : TargetType) :
    m'.read type = (m.renameValue m' · type) <$> m.read type := by
  funext input
  rw [read, Wire.readValue_map (Wire.readObject_map h hnames hnames' input.length)]
  rfl

end Model

/-- Indirections and baking leave the wire alone, where names tell the fields of each constructor
apart before and after. As each type the two models read the same part of every input and stop at
the same error, and the values they read are the same under the names of the fields that stand in
the same places. A value with declared fields is written as the same bytes by the one model as its
renaming is by the other, or both fail with errors of one kind. -/
theorem same_wire_buildModel {ds : List Definition} (hds : Parsed ds) (config : Config)
    (hnames : (Model.ofDefinitions ds).DistinctMembers)
    (hnames' : (buildModel config ds).DistinctMembers) (type : TargetType) :
    (∀ input, (buildModel config ds).read type input =
      match (Model.ofDefinitions ds).read type input with
      | .ok value rest =>
        .ok ((Model.ofDefinitions ds).renameValue (buildModel config ds) value type) rest
      | .error e rest => .error e rest) ∧
    ∀ value, (Model.ofDefinitions ds).declares value type →
      ((buildModel config ds).encode type
          ((Model.ofDefinitions ds).renameValue (buildModel config ds) value type)).mapError
          WireError.kind =
        ((Model.ofDefinitions ds).encode type value).mapError WireError.kind := by
  have hredraft := (Model.derived_buildModel config ds).redraft hds
  constructor
  · intro input
    rw [hredraft.read_eq hnames hnames']
    change EStateM.map _ _ input = _
    rw [EStateM.map]
    cases (Model.ofDefinitions ds).read type input <;> rfl
  · exact fun value hvalue => Wire.sameKind_encodeValue hredraft hnames hnames' rfl hvalue

/-- A type that holds itself, with two kinds of member under each of two names. -/
def richText : String :=
  "plain#1 flags:# text:flags.0?string = RichText;\n" ++
    "bold#2 flags:string text:RichText = RichText;"

def richModel : Model := Model.ofDefinitions (definitionsOf richText)

/-- The model of rich text that code is generated from. -/
def bakedRichModel : Model := buildModel {} (definitionsOf richText)

/-- A bold text around a plain one. -/
def sampleText : Value :=
  .object 2 [("flags", some (.string "b")),
    ("text", some (.object 1 [("text", some (.string "hi"))]))]

/-- Here every member is renamed, a flags word among them. -/
theorem same_wire_richText :
    (∀ input, bakedRichModel.read (.plain "TLRichText") input =
      match richModel.read (.plain "TLRichText") input with
      | .ok value rest =>
        .ok (richModel.renameValue bakedRichModel value (.plain "TLRichText")) rest
      | .error e rest => .error e rest) ∧
    ∃ bytes, richModel.encode (.plain "TLRichText") sampleText = .ok bytes ∧
      bakedRichModel.encode (.plain "TLRichText")
        (richModel.renameValue bakedRichModel sampleText (.plain "TLRichText")) = .ok bytes := by
  have hrun : (readSchema richText).isOk ∧ richModel.DistinctMembers ∧
      bakedRichModel.DistinctMembers ∧
      richModel.declares sampleText (.plain "TLRichText") ∧
      (richModel.encode (.plain "TLRichText") sampleText).isOk := by decide +kernel
  obtain ⟨hread, hnames, hnames', hdeclared, hwrite⟩ := hrun
  have hds : Parsed (definitionsOf richText) :=
    .inl ⟨richText, readSchema_eq_ok_definitionsOf hread⟩
  obtain ⟨hreads, hwrites⟩ := same_wire_buildModel hds {} hnames hnames' (.plain "TLRichText")
  obtain ⟨bytes, hbytes⟩ := exists_of_isOk hwrite
  have hkind : (bakedRichModel.encode _ _).mapError WireError.kind =
      (richModel.encode (.plain "TLRichText") sampleText).mapError WireError.kind :=
    hwrites sampleText hdeclared
  rw [hbytes] at hkind
  exact ⟨hreads, bytes, hbytes, mapError_eq_ok.mp hkind⟩

end TypeLang
