import TypeLang.Proofs.Model.Gates
import TypeLang.Proofs.Wire.Flags
import TypeLang.Proofs.Wire.Reading
import TypeLang.Proofs.Wire.Received

/-!
# Reading what was written

The bytes of a decodable value are taken by the reader of its type, which returns what is received
of it; for a readable value that is its canonical form. The reader bounds the depth of objects by
the length of its input, so the induction carries that the bound is at least the number of bytes
written; each object spends four of them on its id.
-/
namespace TypeLang

namespace Wire

variable {m : Model} {object : String → Reader Value}

/-! ## Types -/

theorem readValue_behindPointers (object : String → Reader Value) (type : TargetType) :
    readValue object type = readValue object type.behindPointers := by
  induction type with
  | pointer target ih => rw [readValue, ih, TargetType.behindPointers]
  | _ => rfl

/-- Whatever is not primitive is read as an object. -/
theorem readValue_of_isPrimitive_eq_false {name : String}
    (h : TargetType.isPrimitive name = false) : readValue object (.plain name) = object name := by
  rw [readValue]
  all_goals
    rintro rfl
    simp [TargetType.isPrimitive, TargetType.isBuiltin, TargetType.builtins,
      TargetType.vectorName] at h

/-! ## Items -/

/-- Items are written one after the other. -/
theorem encodeItems_eq_ok {item : TargetType} {items : List Value} {bytes : Bytes}
    (h : encodeItems m items item = .ok bytes) :
    ∃ chunks : List (Value × Bytes), chunks.map (·.1) = items ∧
      (chunks.map (·.2)).flatten = bytes ∧
      ∀ chunk ∈ chunks, encodeValue m chunk.1 item = .ok chunk.2 := by
  induction items generalizing bytes with
  | nil =>
    cases h
    exact ⟨[], rfl, rfl, by simp⟩
  | cons v items ih =>
    simp only [encodeItems, bind_eq_ok, pure_eq_ok] at h
    obtain ⟨first, hfirst, rest, hrest, rfl⟩ := h
    obtain ⟨chunks, rfl, rfl, hchunks⟩ := ih hrest
    refine ⟨(v, first) :: chunks, rfl, rfl, ?_⟩
    simpa using ⟨hfirst, fun a b => hchunks (a, b)⟩

/-! ## Fields -/

section Fields

variable {o : Object} {fields : List Field} {f : Field} {value : TargetType → Reader Value}
  {words : List (String × UInt32)} {result : Value → TargetType → Value} {depth : Nat}

/-- The reader holds the flags words that the gate of a field looks at. -/
def HasWords (m : Model) (o : Object) (fields : List Field) (words : List (String × UInt32))
    (f : Field) : Prop :=
  ∀ name ∈ f.needed?, words.lookup name = some ((supply m o.fields).flagsWord fields name)

/-- The reader takes what is written for a field with a payload, as far as that is no longer than
`depth`, and finds the result. -/
def TakesField (m : Model) (value : TargetType → Reader Value)
    (result : Value → TargetType → Value) (o : Object) (depth : Nat) (f : Field) : Prop :=
  f.isMark = false → ∀ v, o.field? f.name = some v → ∀ bytes, encodeValue m v f.type = .ok bytes →
    bytes.length ≤ depth → (value f.type).Takes bytes (result v f.type)

theorem isOpen_eq_opens (hlookup : HasWords m o fields words f) {g : FieldGate}
    (hgate : f.gate = some g) : isOpen words g = o.opens fields g := by
  rw [Supplied.isOpen_eq_any (hlookup _ (by simp [Field.needed?, hgate]))]
  simp only [has_supply, Object.opens]

theorem readField_of_open (hmark : f.isMark = false) (hopen : ∀ g ∈ f.gate, isOpen words g) :
    readField value words f = do return some (← value f.type) := by
  simp only [readField]
  split
  · rfl
  · next g hgate => simp [hopen g hgate, hmark]

/-- A field with a payload that is present opens its own gate. -/
theorem readField_of_value (hlookup : HasWords m o fields words f) (hf : f ∈ fields)
    (hmark : f.isMark = false) {v : Value} (hfield : o.field? f.name = some v) :
    readField value words f = do return some (← value f.type) := by
  refine readField_of_open hmark fun g hgate => ?_
  have hhas := Object.has_of_value hmark hfield
  rw [isOpen_eq_opens hlookup hgate, Object.opens_of_has hf hgate hhas]

theorem readField_of_closed {g : FieldGate} (hgate : f.gate = some g)
    (hopen : isOpen words g = false) : readField value words f = pure none := by
  simp [readField, hgate, hopen]

/-- A field with a payload that is present is written. -/
theorem encodeField_of_value (hword : f.isWord = false) (hmark : f.isMark = false) {v : Value}
    (hfield : o.field? f.name = some v) :
    (supply m o.fields).encodeField fields f = encodeValue m v f.type := by
  have hhas := Object.has_of_value hmark hfield
  simp [Supplied.encodeField, hword, hmark, has_supply, hhas, find?_supply, hfield]

/-- A field is read back from what is written for it. -/
theorem takes_readField (hvalue : TakesField m value result o depth f)
    (hcomplete : o.CompleteAt fields f) (hf : f ∈ fields) (hword : f.isWord = false)
    (hlookup : HasWords m o fields words f) {bytes : Bytes}
    (h : (supply m o.fields).encodeField fields f = .ok bytes) (hdepth : bytes.length ≤ depth) :
    (readField value words f).Takes bytes (o.foundField fields result f) := by
  cases hmark : f.isMark with
  | true =>
    -- A mark leaves nothing to read, whether its gate is open or not.
    obtain ⟨g, hgate⟩ := Field.exists_gate_of_isMark hmark
    simp only [Supplied.encodeField, hword, hgate, hmark, Bool.false_eq_true, if_false,
      Option.isSome_some, Bool.or_true, Bool.and_true, if_true, Except.ok.injEq] at h
    subst h
    simp only [readField, hgate, hmark, isOpen_eq_opens hlookup hgate,
      Object.foundField_of_mark hmark hgate]
    cases o.opens fields g with
    | false => exact takes_pure none
    | true => exact takes_pure (some (Value.bool true))
  | false =>
    cases hfield : o.field? f.name with
    | some v =>
      rw [encodeField_of_value hword hmark hfield] at h
      rw [readField_of_value hlookup hf hmark hfield, Object.foundField_of_value hmark hfield]
      exact takes_map (hvalue hmark v hfield bytes h hdepth) some
    | none =>
      -- Nothing is written for a missing field, so its gate has to be closed.
      have hhas : o.has f = false := by rw [o.has_eq_isSome hmark, hfield, Option.isSome_none]
      simp only [Supplied.encodeField, hword, has_supply, hhas, hmark, find?_supply, hfield,
        Bool.false_eq_true, if_false, Bool.not_false, Bool.or_false, Bool.and_true] at h
      cases hgate : f.gate with
      | none => simp [hgate] at h
      | some g =>
        simp only [hgate, Option.isSome_some, if_true, Except.ok.injEq] at h
        subst h
        have hclosed : o.opens fields g = false := Bool.eq_false_iff.mpr fun hopens => by
          rw [hcomplete hmark g hgate hopens] at hhas
          cases hhas
        rw [readField_of_closed hgate ((isOpen_eq_opens hlookup hgate).trans hclosed),
          Object.foundField_of_closed hf hgate hclosed]
        exact takes_pure none

/-- Fields are read in order, with the flags words in front of a field at hand. -/
theorem takes_readFields
    (hvalue : ∀ f ∈ fields, f.isWord = false → TakesField m value result o depth f)
    (hcomplete : o.Complete fields) {todo : List Field} (htodo : todo ⊆ fields)
    {scope : List String} (hscope : Scoped Field.declared? Field.needed? scope todo)
    {words : List (String × UInt32)}
    (hwords : ∀ name ∈ scope,
      words.lookup name = some ((supply m o.fields).flagsWord fields name))
    {chunks : List Bytes}
    (h : todo.mapM ((supply m o.fields).encodeField fields) = .ok chunks)
    (hdepth : chunks.flatten.length ≤ depth) :
    (readFields value words todo).Takes chunks.flatten (o.foundFields fields todo result) := by
  induction todo generalizing scope words chunks with
  | nil =>
    cases h
    exact takes_pure []
  | cons f todo ih =>
    simp only [List.mapM_cons, bind_eq_ok, pure_eq_ok] at h
    obtain ⟨first, hfirst, rest, hrest, rfl⟩ := h
    rw [List.flatten_cons, List.length_append] at hdepth
    have hf : f ∈ fields := htodo List.mem_cons_self
    have htail : todo ⊆ fields := List.Subset.trans (List.subset_cons_self f todo) htodo
    rw [readFields, List.flatten_cons]
    cases hword : f.isWord with
    | true =>
      simp only [Supplied.encodeField, hword, if_true, Except.ok.injEq] at hfirst
      subst hfirst
      simp only [if_true]
      refine takes_bind (takes_readWord _) ?_
      have hskip : o.foundFields fields (f :: todo) result = o.foundFields fields todo result := by
        simp [Object.foundFields, hword]
      rw [hskip]
      exact ih htail hscope.2 (lookup_of_declared hword hwords) hrest (by omega)
    | false =>
      have hfield := takes_readField (hvalue f hf hword) (hcomplete f hf hword) hf hword
        (fun name hname => hwords name (hscope.1 name hname)) hfirst (by omega)
      simp only [Bool.false_eq_true, if_false]
      have hkeep : o.foundFields fields (f :: todo) result =
          (f.name, o.foundField fields result f) :: o.foundFields fields todo result := by
        simp [Object.foundFields, hword]
      rw [hkeep]
      refine takes_bind hfield (takes_map (ih htail hscope.2 ?_ hrest (by omega)) _)
      simpa [Field.declared?, hword] using hwords

end Fields

/-! ## Values -/

/-- What is written for a vector: its header, and one chunk for each item. -/
theorem encodeValue_vector_eq_ok {type item : TargetType} {items : List Value} {bytes : Bytes}
    (hbase : type.behindPointers = .vector item)
    (h : encodeValue m (.vector items) type = .ok bytes) :
    ∃ chunks : List (Value × Bytes), chunks.map (·.1) = items ∧
      bytes = vectorHeader items.length ++ (chunks.map (·.2)).flatten ∧
      ∀ chunk ∈ chunks, encodeValue m chunk.1 item = .ok chunk.2 := by
  rw [encodeValue_vector hbase] at h
  simp only [bind_eq_ok, pure_eq_ok] at h
  obtain ⟨body, hbody, rfl⟩ := h
  obtain ⟨chunks, hitems, rfl, hchunks⟩ := encodeItems_eq_ok hbody
  exact ⟨chunks, hitems, rfl, hchunks⟩

/-- What is written for an object: the id of its constructor, and the fields of that. -/
theorem encodeValue_object_eq_ok_iff {type : TargetType} {name : String} {id : UInt32}
    {fields : List (String × Option Value)} {bytes : Bytes}
    (hbase : type.behindPointers = .plain name) :
    encodeValue m (.object id fields) type = .ok bytes ↔
      ∃ c chunks, m.constructorOf? name id = some c ∧
        c.fields.mapM ((supply m fields).encodeField c.fields) = .ok chunks ∧
        bytes = wordBytes id ++ chunks.flatten := by
  rw [encodeValue.eq_def]
  simp only [hbase, Model.constructorOf?]
  cases m.type? name with
  | none => simp
  | some t =>
    simp only [Option.bind_some]
    cases t.constructor? id with
    | none => simp
    | some c =>
      simp only [Supplied.encodeFields, bind_eq_ok, pure_eq_ok]
      constructor
      · rintro ⟨-, ⟨chunks, hchunks, rfl⟩, rfl⟩
        exact ⟨c, chunks, rfl, hchunks, rfl⟩
      · rintro ⟨_, chunks, ⟨⟩, hchunks, rfl⟩
        exact ⟨_, ⟨chunks, hchunks, rfl⟩, rfl⟩

/-- An object is read back when its fields are, at one depth less. -/
theorem takes_readObject {name : String} {id : UInt32} {c : Constructor} {depth : Nat}
    {bytes : Bytes} {fields : List (String × Option Value)} (hc : m.constructorOf? name id = some c)
    (h : (readFields (readValue (readObject m depth)) [] c.fields).Takes bytes fields) :
    (readObject m (depth + 1) name).Takes (wordBytes id ++ bytes) (.object id fields) := by
  rw [readObject]
  refine takes_bind (takes_readWord id) ?_
  simp only [Model.constructorOf?, Option.bind_eq_some_iff] at hc
  obtain ⟨t, htype, hc⟩ := hc
  simp only [htype, hc]
  exact takes_map h _

/-- Numbers, texts and blocks are read back as they are. -/
theorem takes_readValue_primitive {v : Value} {type : TargetType} {bytes : Bytes}
    (hvector : ∀ item items, type.behindPointers = .vector item → v = .vector items → False)
    (hobject : ∀ name id fields, type.behindPointers = .plain name → v = .object id fields → False)
    (h : encodeValue m v type = .ok bytes) :
    (readValue object type.behindPointers).Takes bytes v := by
  rw [encodeValue.eq_def] at h
  simp only at h
  split at h
  · next hbase => exact (hvector _ _ hbase rfl).elim
  · next b hbase =>
    cases h
    rw [hbase, readValue]
    exact takes_map (takes_readBool b) _
  · next n hbase =>
    cases h
    rw [hbase, readValue]
    exact takes_map (takes_readWord n) _
  · next n hbase =>
    cases h
    rw [hbase, readValue]
    exact takes_map (takes_readLong n) _
  · next bits hbase =>
    cases h
    rw [hbase, readValue]
    exact takes_map (takes_readLong bits) _
  · next s hbase =>
    rw [hbase, readValue]
    exact takes_map (takes_readString h) _
  · next data hbase =>
    rw [hbase, readValue]
    exact takes_map (takes_readPayload h) _
  · next block hbase =>
    cases h
    rw [hbase, readValue]
    exact takes_map (takes_readBlock block) _
  · next block hbase =>
    cases h
    rw [hbase, readValue]
    exact takes_map (takes_readBlock block) _
  · next hbase => exact (hobject _ _ _ hbase rfl).elim
  · cases h

/-- The reader of a type takes what was written for a decodable value. -/
theorem takes_received (hgated : ∀ t ∈ m.types, ∀ c ∈ t.constructors, Field.Gated c.fields)
    {v : Value} {type : TargetType} {bytes : Bytes} {depth : Nat}
    (h : encodeValue m v type = .ok bytes) (hv : m.isDecodable v type)
    (hdepth : bytes.length ≤ depth) :
    (readValue (readObject m depth) type).Takes bytes (m.received v type) := by
  rw [readValue_behindPointers]
  induction v, type using Model.received.induct (m := m) generalizing bytes depth with
  | case1 type item items hbase ih =>
    obtain ⟨chunks, rfl, rfl, hchunks⟩ := encodeValue_vector_eq_ok hbase h
    obtain ⟨hlength, hitems⟩ := (Model.isDecodable_vector_iff hbase).mp hv
    rw [Model.received_vector hbase, hbase, readValue]
    refine takes_bind (takes_readVectorHeader hlength) (takes_map ?_ _)
    rw [List.map_map, List.length_map]
    refine takes_readItems fun chunk hchunk => ?_
    have hmem : chunk.1 ∈ chunks.map (·.1) := List.mem_map_of_mem hchunk
    have hshort := List.Sublist.length_le
      (List.sublist_flatten_of_mem (List.mem_map_of_mem (f := (·.2)) hchunk))
    rw [List.length_append] at hdepth
    rw [readValue_behindPointers]
    exact ih chunk.1 hmem (hchunks chunk hchunk) (hitems chunk.1 hmem) (by omega)
  | case2 type name id fields hbase hnone =>
    obtain ⟨c, -, hc, -⟩ := (encodeValue_object_eq_ok_iff hbase).mp h
    rw [hnone] at hc
    cases hc
  | case3 type name id fields hbase c hc ih =>
    obtain ⟨b, chunks, hb, hchunks, rfl⟩ := (encodeValue_object_eq_ok_iff hbase).mp h
    obtain rfl : c = b := Option.some.inj (hc.symm.trans hb)
    obtain ⟨hprimitive, hcomplete, hfields⟩ := (Model.isDecodable_object_iff hbase hc).mp hv
    obtain ⟨t, ht, hmem⟩ := Model.exists_mem_of_constructorOf? hc
    rw [List.length_append, wordBytes, length_littleEndian] at hdepth
    -- The id of the object pays for one level of depth.
    obtain ⟨depth, rfl⟩ : ∃ d, depth = d + 1 := ⟨depth - 1, by omega⟩
    rw [Model.received_object hbase hc, hbase, readValue_of_isPrimitive_eq_false hprimitive]
    have hvalue : ∀ f ∈ c.fields, f.isWord = false →
        TakesField m (readValue (readObject m depth)) m.received ⟨id, fields⟩ depth f := by
      intro f hf hword hmark u hu bytes hencode hshort
      rw [readValue_behindPointers]
      exact ih f u hu hencode (hfields f hf hword hmark u hu) hshort
    exact takes_readObject hc (takes_readFields hvalue hcomplete (List.Subset.refl _)
      (hgated t ht c hmem).inScope (by simp) hchunks (by omega))
  | case4 type v hvector hobject =>
    rw [Model.received_of_primitive hvector hobject]
    exact takes_readValue_primitive hvector hobject h

/-- The reader of a type takes what was written for a readable value. -/
theorem takes_readValue (hgated : ∀ t ∈ m.types, ∀ c ∈ t.constructors, Field.Gated c.fields)
    {v : Value} {type : TargetType} {bytes : Bytes} {depth : Nat}
    (h : encodeValue m v type = .ok bytes) (hv : m.isReadable v type)
    (hdepth : bytes.length ≤ depth) :
    (readValue (readObject m depth) type).Takes bytes (m.canonical v type) := by
  obtain ⟨hdecodable, hsame⟩ := Model.isDecodable_of_isReadable hv
  rw [← hsame]
  exact takes_received hgated h hdecodable hdepth

end Wire

/-- A readable value that a model of a schema writes is read back in canonical form, whatever
follows the bytes written, and nothing of what follows is consumed. -/
theorem Model.Derived.read_append_of_encode {ds : List Definition} {m : Model} (hds : Parsed ds)
    (hm : m.Derived ds) {type : TargetType} {value : Value} {bytes : Bytes}
    (h : m.encode type value = .ok bytes) (hv : m.isReadable value type) (rest : Bytes) :
    m.read type (bytes ++ rest) = .ok (m.canonical value type) rest := by
  have hdepth : bytes.length ≤ (bytes ++ rest).length := by
    rw [List.length_append]
    exact Nat.le_add_right _ _
  exact Wire.takes_readValue (hm.gated_constructor hds) h hv hdepth rest

/-- A type that holds itself twice behind one gate. -/
def treeText : String :=
  "tree#11223344 flags:# leaf:flags.0?true left:flags.1?Tree right:flags.1?Tree " ++
    "name:flags.3?string weights:Vector<double> = Tree;"

/-- The model of trees, with the subtrees behind pointers. -/
def treeModel : Model := (Model.ofDefinitions (definitionsOf treeText)).cut ⟨"Tree", "Tree"⟩

/-- A tree with two leaves, its fields out of order and one of them unknown. -/
def sampleTree : Value :=
  let leaf := .object 0x11223344 [("leaf", some (.bool true)), ("weights", some (.vector []))]
  .object 0x11223344 [("right", some leaf), ("color", some (.int 4)), ("left", some leaf),
    ("weights", some (.vector [.double 1, .double 0x8000000000000000])),
    ("name", some (.string "root"))]

/-- A tree is read back, whatever follows it. -/
theorem read_append_of_encode_sampleTree :
    ∃ bytes, treeModel.encode (.pointer (.plain "TLTree")) sampleTree = .ok bytes ∧
      treeModel.read (.pointer (.plain "TLTree")) (bytes ++ [1, 2, 3]) =
        .ok (treeModel.canonical sampleTree (.pointer (.plain "TLTree"))) [1, 2, 3] := by
  have hrun : (readSchema treeText).isOk ∧
      (treeModel.encode (.pointer (.plain "TLTree")) sampleTree).isOk ∧
      treeModel.isReadable sampleTree (.pointer (.plain "TLTree")) := by decide +kernel
  obtain ⟨hread, hwrite, hreadable⟩ := hrun
  have hds : Parsed (definitionsOf treeText) :=
    .inl ⟨treeText, readSchema_eq_ok_definitionsOf hread⟩
  have hm : Model.Derived (definitionsOf treeText) treeModel := .cut _ .ofDefinitions
  obtain ⟨bytes, hbytes⟩ := exists_of_isOk hwrite
  exact ⟨bytes, hbytes, hm.read_append_of_encode hds hbytes hreadable [1, 2, 3]⟩

end TypeLang
