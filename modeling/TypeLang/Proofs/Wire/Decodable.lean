import TypeLang.Proofs.Wire.NormalForm

/-!
# Only decodable values are read back

The writer accepts more than the reader gives back. A written value is found again exactly when it
is decodable: when a vector is too long for its header, when an object stands for a primitive type,
or when a payload is left out behind an open gate, then what is read is something else, if anything
is read at all. Where the reader does find what is received of a value, that is normal, so of the
three only the left out payload is not excluded at once. It takes a walk along the fields, since
behind it the reader would be out of step.
-/
namespace TypeLang

namespace Wire

variable {m : Model} {depth : Nat} {rest rest' : Bytes}

/-- If the reader of a type finds what is received of a value in front of what is written, the value
is decodable. -/
def TellsDecodable (m : Model) (depth : Nat) (value : Value) (type : TargetType) : Prop :=
  ∀ bytes rest rest', encodeValue m value type = .ok bytes → bytes.length ≤ depth →
    readValue (readObject m depth) type (bytes ++ rest) = .ok (m.received value type) rest' →
    m.isDecodable value type

/-! ## Items -/

/-- If items are found as they are received, all of them are decodable. -/
theorem isDecodable_items (hgated : ∀ t ∈ m.types, ∀ c ∈ t.constructors, Field.Gated c.fields)
    {item : TargetType} {chunks : List (Value × Bytes)}
    (hchunks : ∀ chunk ∈ chunks, encodeValue m chunk.1 item = .ok chunk.2)
    (htells : ∀ chunk ∈ chunks, TellsDecodable m depth chunk.1 item)
    (hdepth : (chunks.map (·.2)).flatten.length ≤ depth)
    (hread : readItems (readValue (readObject m depth) item) chunks.length
      ((chunks.map (·.2)).flatten ++ rest) = .ok (chunks.map (m.received ·.1 item)) rest') :
    ∀ chunk ∈ chunks, m.isDecodable chunk.1 item := by
  induction chunks with
  | nil => simp
  | cons chunk chunks ih =>
    obtain ⟨hchunk, hchunks⟩ := List.forall_mem_cons.mp hchunks
    obtain ⟨htell, htells⟩ := List.forall_mem_cons.mp htells
    simp only [List.map_cons, List.flatten_cons, List.length_append] at hdepth
    simp only [List.map_cons, List.flatten_cons, List.length_cons, List.append_assoc] at hread
    rw [readItems] at hread
    obtain ⟨first, mid, hfirst, hread⟩ := bind_eq_ok_iff.mp hread
    obtain ⟨others, _, hothers, heq⟩ := bind_eq_ok_iff.mp hread
    cases heq
    have hdecodable := htell _ _ _ hchunk (by omega) hfirst
    rw [takes_received hgated hchunk hdecodable (by omega)] at hfirst
    cases hfirst
    exact List.forall_mem_cons.mpr ⟨hdecodable, ih hchunks htells (by omega) hothers⟩

/-! ## Fields -/

section Fields

variable {o : Object} {fields : List Field} {f : Field} {words : List (String × UInt32)}

/-- If a field is found as it is received, it is not left out, and its value is decodable. -/
theorem completeAt_of_readField (htells : f.isMark = false → ∀ v, o.field? f.name = some v →
      TellsDecodable m depth v f.type)
    (hf : f ∈ fields) (hword : f.isWord = false) (hlookup : HasWords m o fields words f)
    {bytes : Bytes} (h : (supply m o.fields).encodeField fields f = .ok bytes)
    (hdepth : bytes.length ≤ depth)
    (hread : readField (readValue (readObject m depth)) words f (bytes ++ rest) =
      .ok (o.foundField fields m.received f) rest') :
    o.CompleteAt fields f ∧
      (f.isMark = false → ∀ v, o.field? f.name = some v → m.isDecodable v f.type) := by
  constructor
  · intro hmark g hgate hopens
    rw [o.has_eq_isSome hmark]
    cases hfield : o.field? f.name with
    | some v => rfl
    | none =>
      -- The reader finds something where nothing is received.
      have hopen : ∀ k ∈ f.gate, isOpen words k := by
        intro k hk
        obtain rfl := Option.mem_unique hgate hk
        rw [isOpen_eq_opens hlookup hgate, hopens]
      rw [readField_of_open hmark hopen] at hread
      obtain ⟨v, _, -, heq⟩ := bind_eq_ok_iff.mp hread
      simp only [Object.foundField, hmark, hfield, Option.map_none, Bool.false_eq_true, if_false]
        at heq
      cases heq
  · intro hmark v hfield
    rw [encodeField_of_value hword hmark hfield] at h
    rw [readField_of_value hlookup hf hmark hfield, Object.foundField_of_value hmark hfield]
      at hread
    obtain ⟨u, _, hvalue, heq⟩ := bind_eq_ok_iff.mp hread
    cases heq
    exact htells hmark v hfield bytes rest _ h hdepth hvalue

/-- If fields are found as they are received, no payload is left out. -/
theorem complete_of_readFields
    (hgated : ∀ t ∈ m.types, ∀ c ∈ t.constructors, Field.Gated c.fields)
    (htells : ∀ f ∈ fields, f.isWord = false → f.isMark = false →
      ∀ v, o.field? f.name = some v → TellsDecodable m depth v f.type)
    {todo : List Field} (htodo : todo ⊆ fields) {scope : List String}
    (hscope : Scoped Field.declared? Field.needed? scope todo)
    (hwords : ∀ name ∈ scope,
      words.lookup name = some ((supply m o.fields).flagsWord fields name))
    {chunks : List Bytes} (h : todo.mapM ((supply m o.fields).encodeField fields) = .ok chunks)
    (hdepth : chunks.flatten.length ≤ depth)
    (hread : readFields (readValue (readObject m depth)) words todo (chunks.flatten ++ rest) =
      .ok (o.foundFields fields todo m.received) rest') :
    ∀ f ∈ todo, f.isWord = false → o.CompleteAt fields f ∧
      (f.isMark = false → ∀ v, o.field? f.name = some v → m.isDecodable v f.type) := by
  induction todo generalizing scope words chunks with
  | nil => simp
  | cons f todo ih =>
    simp only [List.mapM_cons, bind_eq_ok, pure_eq_ok] at h
    obtain ⟨first, hfirst, others, hothers, rfl⟩ := h
    rw [List.flatten_cons, List.length_append] at hdepth
    rw [List.flatten_cons, List.append_assoc, readFields] at hread
    have hf : f ∈ fields := htodo List.mem_cons_self
    have htail : todo ⊆ fields := List.Subset.trans (List.subset_cons_self f todo) htodo
    cases hword : f.isWord with
    | true =>
      have hskip : o.foundFields fields (f :: todo) m.received =
          o.foundFields fields todo m.received := by simp [Object.foundFields, hword]
      simp only [Supplied.encodeField, hword, if_true, Except.ok.injEq] at hfirst
      subst hfirst
      simp only [hword, if_true, hskip] at hread
      obtain ⟨word, mid, hread, hrest⟩ := bind_eq_ok_iff.mp hread
      rw [takes_readWord] at hread
      cases hread
      refine List.forall_mem_cons.mpr ⟨by simp [hword], ?_⟩
      exact ih htail hscope.2 (lookup_of_declared hword hwords) hothers (by omega) hrest
    | false =>
      have hkeep : o.foundFields fields (f :: todo) m.received =
          (f.name, o.foundField fields m.received f) :: o.foundFields fields todo m.received := by
        simp [Object.foundFields, hword]
      have hlookup : HasWords m o fields words f := fun name hname =>
        hwords name (hscope.1 name hname)
      simp only [hword, Bool.false_eq_true, if_false, hkeep] at hread
      obtain ⟨value, mid, hread, hrest⟩ := bind_eq_ok_iff.mp hread
      obtain ⟨entries, _, hrest, heq⟩ := bind_eq_ok_iff.mp hrest
      cases heq
      have hfield := completeAt_of_readField (htells f hf hword) hf hword hlookup hfirst (by omega)
        hread
      have hvalue : TakesField m (readValue (readObject m depth)) m.received o depth f :=
        fun hmark v hv bytes hencode => takes_received hgated hencode (hfield.2 hmark v hv)
      rw [takes_readField hvalue hfield.1 hf hword hlookup hfirst (by omega)] at hread
      cases hread
      refine List.forall_mem_cons.mpr ⟨fun _ => hfield, ?_⟩
      refine ih htail hscope.2 ?_ hothers (by omega) hrest
      simpa [Field.declared?, hword] using hwords

end Fields

/-! ## Values -/

/-- Behind its id, the fields of an object are read. -/
theorem readFields_of_readObject {name : String} {id : UInt32} {c : Constructor} {bytes : Bytes}
    {fields : List (String × Option Value)} (hc : m.constructorOf? name id = some c)
    (h : readObject m (depth + 1) name (wordBytes id ++ bytes) = .ok (.object id fields) rest) :
    readFields (readValue (readObject m depth)) [] c.fields bytes = .ok fields rest := by
  rw [readObject] at h
  obtain ⟨first, mid, hfirst, h⟩ := bind_eq_ok_iff.mp h
  rw [takes_readWord] at hfirst
  cases hfirst
  simp only [Model.constructorOf?, Option.bind_eq_some_iff] at hc
  obtain ⟨t, htype, hc⟩ := hc
  simp only [htype, hc] at h
  obtain ⟨found, _, hread, heq⟩ := bind_eq_ok_iff.mp h
  cases heq
  exact hread

/-- What is found as it is received was decodable. -/
theorem tellsDecodable (hgated : ∀ t ∈ m.types, ∀ c ∈ t.constructors, Field.Gated c.fields)
    (hnames : m.DistinctMembers) (depth : Nat) (value : Value) (type : TargetType) :
    TellsDecodable m depth value type := by
  induction value, type using Model.received.induct (m := m) generalizing depth with
  | case1 type item items hbase ih =>
    intro bytes rest rest' h hdepth hread
    obtain ⟨chunks, rfl, rfl, hchunks⟩ := encodeValue_vector_eq_ok hbase h
    rw [readValue_behindPointers, hbase, Model.received_vector hbase] at hread
    have hnormal := (finds_normal hgated hnames depth _ _ _ _ hread).isDecodable
    have hlength := ((Model.isDecodable_vector_iff rfl).mp hnormal).1
    rw [List.length_map] at hlength
    rw [readValue] at hread
    obtain ⟨length, mid, hheader, hread⟩ := bind_eq_ok_iff.mp hread
    rw [List.append_assoc, takes_readVectorHeader hlength] at hheader
    cases hheader
    obtain ⟨found, _, hread, heq⟩ := bind_eq_ok_iff.mp hread
    cases heq
    rw [List.length_append] at hdepth
    rw [List.map_map, List.length_map] at hread
    have hitems := isDecodable_items hgated hchunks
      (fun chunk hchunk => ih chunk.1 (List.mem_map_of_mem hchunk) depth) (by omega) hread
    exact (Model.isDecodable_vector_iff hbase).mpr ⟨hlength, List.forall_mem_map.mpr hitems⟩
  | case2 type name id fields hbase hnone =>
    intro bytes rest rest' h
    obtain ⟨c, -, hc, -⟩ := (encodeValue_object_eq_ok_iff hbase).mp h
    rw [hnone] at hc
    cases hc
  | case3 type name id fields hbase c hc ih =>
    intro bytes rest rest' h hdepth hread
    obtain ⟨b, chunks, hb, hchunks, rfl⟩ := (encodeValue_object_eq_ok_iff hbase).mp h
    obtain rfl : c = b := Option.some.inj (hc.symm.trans hb)
    obtain ⟨t, ht, hmem⟩ := Model.exists_mem_of_constructorOf? hc
    rw [readValue_behindPointers, hbase, Model.received_object hbase hc] at hread
    have hnormal := (finds_normal hgated hnames depth _ _ _ _ hread).isDecodable
    have hprimitive := ((Model.isDecodable_object_iff rfl hc).mp hnormal).1
    rw [List.length_append, wordBytes, length_littleEndian] at hdepth
    obtain ⟨depth, rfl⟩ : ∃ d, depth = d + 1 := ⟨depth - 1, by omega⟩
    rw [readValue_of_isPrimitive_eq_false hprimitive, List.append_assoc] at hread
    have hfields := readFields_of_readObject hc hread
    have hfound := complete_of_readFields hgated
      (fun f _ _ _ v hv => ih f v hv depth) (List.Subset.refl _)
      (hgated t ht c hmem).inScope (by simp) hchunks (by omega) hfields
    exact (Model.isDecodable_object_iff hbase hc).mpr ⟨hprimitive,
      fun f hf hword => (hfound f hf hword).1, fun f hf hword => (hfound f hf hword).2⟩
  | case4 type v hvector hobject =>
    exact fun _ _ _ _ _ _ => Model.isDecodable_of_primitive hvector hobject

end Wire

/-- What a model of a schema writes for a value is read as what is received of the value, and
consumed entirely, exactly when the value is decodable. -/
theorem Model.Derived.read_encode_iff {ds : List Definition} {m : Model} (hds : Parsed ds)
    (hm : m.Derived ds) (hnames : m.DistinctMembers) {type : TargetType} {value : Value}
    {bytes : Bytes} (h : m.encode type value = .ok bytes) :
    m.read type bytes = .ok (m.received value type) [] ↔ m.isDecodable value type := by
  have hgated := hm.gated_constructor hds
  constructor
  · intro hread
    refine Wire.tellsDecodable hgated hnames bytes.length value type bytes [] [] h
      (Nat.le_refl _) ?_
    rwa [List.append_nil]
  · intro hv
    have htakes := Wire.takes_received hgated h hv (Nat.le_refl _) []
    rwa [List.append_nil] at htakes

/-- Two payloads behind one gate, and a payload and a mark behind another. -/
def sharedText : String :=
  "a#1 flags:# x:flags.0?int y:flags.0?int z:flags.1?int w:flags.1?true = T;"

def sharedModel : Model := Model.ofDefinitions (definitionsOf sharedText)

/-- An object without the mark whose gate its payload opens. -/
def unmarkedObject : Value := .object 1 [("z", some (.int 7))]

/-- An object with one of two payloads. -/
def halfObject : Value := .object 1 [("x", some (.int 7)), ("y", none)]

/-- The mark is received, but the other payload is not. -/
theorem read_encode_shared :
    (∃ bytes, sharedModel.encode (.plain "TLT") unmarkedObject = .ok bytes ∧
      sharedModel.read (.plain "TLT") bytes =
        .ok (sharedModel.received unmarkedObject (.plain "TLT")) []) ∧
    ∃ bytes, sharedModel.encode (.plain "TLT") halfObject = .ok bytes ∧
      sharedModel.read (.plain "TLT") bytes ≠
        .ok (sharedModel.received halfObject (.plain "TLT")) [] ∧
      (sharedModel.decode (.plain "TLT") bytes).isOk = false := by
  have hrun : (readSchema sharedText).isOk ∧ sharedModel.DistinctMembers ∧
      (sharedModel.encode (.plain "TLT") unmarkedObject).isOk ∧
      sharedModel.isDecodable unmarkedObject (.plain "TLT") ∧
      sharedModel.isDecodable halfObject (.plain "TLT") = false ∧
      sharedModel.encode (.plain "TLT") halfObject =
        .ok (Wire.wordBytes 1 ++ Wire.wordBytes 1 ++ Wire.wordBytes 7) ∧
      (sharedModel.decode (.plain "TLT")
        (Wire.wordBytes 1 ++ Wire.wordBytes 1 ++ Wire.wordBytes 7)).isOk = false := by
    decide +kernel
  obtain ⟨hread, hnames, hunmarked, hdecodable, hundecodable, hhalf, hfails⟩ := hrun
  have hds : Parsed (definitionsOf sharedText) :=
    .inl ⟨sharedText, readSchema_eq_ok_definitionsOf hread⟩
  obtain ⟨bytes, hbytes⟩ := exists_of_isOk hunmarked
  have hm : Model.Derived (definitionsOf sharedText) sharedModel := .ofDefinitions
  refine ⟨⟨bytes, hbytes, ?_⟩, _, hhalf, fun hback => ?_, hfails⟩
  · exact (Model.Derived.read_encode_iff hds hm hnames hbytes).mpr hdecodable
  · have := (Model.Derived.read_encode_iff hds hm hnames hhalf).mp hback
    rw [hundecodable] at this
    cases this

end TypeLang
