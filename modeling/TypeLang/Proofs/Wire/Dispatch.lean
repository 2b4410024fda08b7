import Mathlib
import TypeLang.Proofs.Model.Tags
import TypeLang.Proofs.Naming.Template
import TypeLang.Proofs.Wire.Depth
import TypeLang.Proofs.Wire.RoundTrip

/-!
# Dispatch by id

Where ids tell the definitions of a schema apart, looking a definition up by its id alone finds
what looking it up by its name finds, and both go on to read the same fields. So a request is read
back as the request that was written, and an object is read alike whether its type is given or not.

The name of a type has to stand for that type. The one name that does not is that of a vector type:
the reader takes it for a vector, with the header of one, even where the schema defines
constructors of it.
-/
namespace TypeLang

/-- Nothing in the arguments of a method, or in the fields of a constructor, keeps a reader from
getting them back: the fields behind one gate are all present or all absent, and what is written of
them is readable. -/
structure Object.Readable (m : Model) (o : Object) (fields : List Field) : Prop where
  agree : o.Agree fields
  payload : ∀ f ∈ fields, f.isWord = false → f.isMark = false →
    ∀ v ∈ o.field? f.name, m.isReadable v f.type

instance (m : Model) (o : Object) (fields : List Field) : Decidable (o.Readable m fields) :=
  decidable_of_iff (o.Agree fields ∧ ∀ f ∈ fields, f.isWord = false → f.isMark = false →
    ∀ v ∈ o.field? f.name, m.isReadable v f.type)
    ⟨fun h => ⟨h.1, h.2⟩, fun h => ⟨h.agree, h.payload⟩⟩

namespace Model

variable {m : Model} {α β : Type}

/-! ## Reading behind an id -/

theorem runReader_readWord_bind (f : UInt32 → Reader α) (id : UInt32) (rest : Bytes) :
    runReader (Wire.readWord >>= f) (Wire.wordBytes id ++ rest) = runReader (f id) rest := by
  have hword : (Wire.readWord >>= f) (Wire.wordBytes id ++ rest) = f id rest := by
    change EStateM.bind Wire.readWord f _ = _
    rw [EStateM.bind, Wire.takes_readWord id rest]
  rw [runReader, runReader, EStateM.run, EStateM.run, hword]

theorem runReader_map (r : Reader α) (f : α → β) (input : Bytes) :
    runReader (do return f (← r)) input = (runReader r input).map f := by
  have hbind : (do return f (← r)) input = EStateM.bind r (fun a => EStateM.pure (f a)) input := rfl
  rw [runReader, runReader, EStateM.run, EStateM.run, hbind, EStateM.bind]
  cases r input <;> rfl

theorem runReader_of_takes {r : Reader α} {bytes : Bytes} {a : α} (h : r.Takes bytes a) :
    runReader r bytes = .ok a := by
  have hread := h []
  rw [List.append_nil] at hread
  rw [runReader, EStateM.run, hread]

/-! ## Requests -/

theorem findMethod_eq_ok (hnames : (m.methods.map (·.name)).Nodup) {method : Method}
    (hmethod : method ∈ m.methods) : m.findMethod method.name = .ok method := by
  simp only [findMethod, (method?_eq_some_iff hnames).mpr ⟨hmethod, rfl⟩]

/-- What is written for the fields of a method is read back from the whole of it. -/
theorem takes_readFields_of_readable
    (hgated : ∀ t ∈ m.types, ∀ c ∈ t.constructors, Field.Gated c.fields) {o : Object}
    {fields : List Field} (hfields : Field.Gated fields) (ho : o.Readable m fields) {bytes : Bytes}
    (h : (Wire.supply m o.fields).encodeFields fields = .ok bytes) :
    runReader (m.readFields fields) bytes = .ok (m.canonicalFields o fields) := by
  simp only [Wire.Supplied.encodeFields, bind_eq_ok, pure_eq_ok] at h
  obtain ⟨chunks, hchunks, rfl⟩ := h
  have hreceived : ∀ f ∈ fields, f.isWord = false → f.isMark = false →
      ∀ v, o.field? f.name = some v →
        m.isDecodable v f.type ∧ m.received v f.type = m.canonical v f.type :=
    fun f hf hword hmark v hv => isDecodable_of_isReadable (ho.payload f hf hword hmark v hv)
  have htakes : (Wire.readFields (Wire.readValue (Wire.readObject m chunks.flatten.length)) []
      fields).Takes chunks.flatten (o.foundFields fields fields m.received) := by
    refine Wire.takes_readFields ?_ ho.agree.complete (List.Subset.refl _) hfields.inScope (by simp)
      hchunks (Nat.le_refl _)
    intro f hf hword hmark v hv bytes hbytes hdepth
    exact Wire.takes_received hgated hbytes (hreceived f hf hword hmark v hv).1 hdepth
  rw [foundFields_eq_canonicalFields ho.agree fun f hf hword hmark v hv =>
    (hreceived f hf hword hmark v hv).2] at htakes
  -- The reader goes as deep as its input is long, which here is what was written.
  have hread := runReader_of_takes htakes
  exact hread

/-- A request is read back by the id of its method. -/
theorem decodeRequest_of_encodeRequest
    (hgated : ∀ t ∈ m.types, ∀ c ∈ t.constructors, Field.Gated c.fields)
    (hnames : (m.methods.map (·.name)).Nodup) (hids : (m.methods.map (·.id)).Nodup)
    {method : Method} (hmethod : method ∈ m.methods) (hfields : Field.Gated method.fields)
    {arguments : List (String × Option Value)} {bytes : Bytes}
    (h : m.encodeRequest method.name arguments = .ok bytes)
    (harguments : (Object.mk method.id arguments).Readable m method.fields) :
    m.decodeRequest bytes =
      .ok (method.name, ⟨method.id, m.canonicalFields ⟨method.id, arguments⟩ method.fields⟩) := by
  simp only [encodeRequest, findMethod_eq_ok hnames hmethod, bind_eq_ok, pure_eq_ok,
    Except.ok.injEq] at h
  obtain ⟨_, rfl, fields, hwritten, rfl⟩ := h
  have hfind : m.methodById? method.id = some method := find?_eq_some_of_nodup hids hmethod
  rw [decodeRequest, runReader_readWord_bind]
  simp only [hfind, runReader_map, takes_readFields_of_readable hgated hfields harguments hwritten]
  rfl

/-! ## Objects -/

/-- Where no two constructors have one id, the id of a constructor finds it, in its type and among
all types. -/
theorem constructor_of_id (hids : (m.types.flatMap fun t => t.constructors.map (·.id)).Nodup)
    {t : TaggedType} (ht : t ∈ m.types) {c : Constructor} (hc : c ∈ t.constructors) :
    t.constructor? c.id = some c ∧ m.constructorById? c.id = some (t, c) := by
  obtain ⟨hinside, hacross⟩ := List.nodup_flatMap.mp hids
  have hfind : t.constructor? c.id = some c := find?_eq_some_of_nodup (hinside t ht) hc
  refine ⟨hfind, findSome?_eq_of_forall ⟨t, ht, by rw [hfind]; rfl⟩ fun u hu => ?_⟩
  by_cases hsame : u = t
  · subst hsame
    exact .inr (by rw [hfind]; rfl)
  · -- A constructor of this id in another type would have the id twice.
    have : Std.Symm (Function.onFun List.Disjoint fun t : TaggedType =>
        t.constructors.map (·.id)) := ⟨fun _ _ h => h.symm⟩
    have hdisjoint : List.Disjoint (t.constructors.map (·.id)) (u.constructors.map (·.id)) :=
      hacross.forall ht hu (Ne.symm hsame)
    refine .inl ?_
    rw [Option.map_eq_none_iff, TaggedType.constructor?, List.find?_eq_none]
    intro b hb hid
    rw [beq_iff_eq] at hid
    exact hdisjoint (List.mem_map_of_mem hc) (List.mem_map.mpr ⟨b, hb, hid⟩)

/-- Behind the id of a constructor an object of its type has the fields of the constructor. -/
theorem decode_plain_of_constructor {name : String}
    (hprimitive : TargetType.isPrimitive name = false)
    {t : TaggedType} (htype : m.type? name = some t) {c : Constructor} {id : UInt32}
    (hc : t.constructor? id = some c) (rest : Bytes) :
    m.decode (.plain name) (Wire.wordBytes id ++ rest) =
      (runReader (m.readFields c.fields) rest).map (Value.object id) := by
  have hdepth : (Wire.wordBytes id ++ rest).length ≤ rest.length + 4 := by
    rw [List.length_append, Wire.wordBytes, Wire.length_littleEndian, Nat.add_comm]
  have hread : m.decode (.plain name) (Wire.wordBytes id ++ rest) =
      runReader (Wire.readObject m (rest.length + 3 + 1) name) (Wire.wordBytes id ++ rest) := by
    rw [decode, runReader, runReader, EStateM.run, EStateM.run, read_eq_readValue hdepth,
      Wire.readValue_of_isPrimitive_eq_false hprimitive]
  have hfields : runReader (m.readFields c.fields) rest =
      runReader (Wire.readFields (Wire.readValue (Wire.readObject m (rest.length + 3))) []
        c.fields) rest := by
    rw [runReader, runReader, EStateM.run, EStateM.run, 
      readFields_eq_readFields (show rest.length ≤ rest.length + 3 by omega)]
  rw [hread, Wire.readObject, runReader_readWord_bind]
  simp only [htype, hc, runReader_map, hfields]

/-- An object is read by its id alone as it is read by its type. -/
theorem decode_plain_eq_decodeAny (hnames : (m.types.map (·.name)).Nodup)
    (hids : (m.types.flatMap fun t => t.constructors.map (·.id)).Nodup) {t : TaggedType}
    (ht : t ∈ m.types) (hprimitive : TargetType.isPrimitive t.name = false) {c : Constructor}
    (hc : c ∈ t.constructors) (rest : Bytes) :
    m.decode (.plain t.name) (Wire.wordBytes c.id ++ rest) =
      (m.decodeAny (Wire.wordBytes c.id ++ rest)).map Object.toValue := by
  obtain ⟨hinside, hacross⟩ := constructor_of_id hids ht hc
  have htype : m.type? t.name = some t := (type?_eq_some_iff hnames).mpr ⟨ht, rfl⟩
  rw [decode_plain_of_constructor hprimitive htype hinside, decodeAny, runReader_readWord_bind]
  simp only [hacross, runReader_map]
  cases runReader (m.readFields c.fields) rest <;> rfl

/-- Where ids tell the methods apart and the constructors of all types apart, requests and objects
are read by their ids alone. A request that is written from readable arguments is read back as a
request of the same method, with its arguments in canonical form. Whatever starts with the id of a
constructor is read alike with and without the name of the type, unless the type is built in or its
name is that of a vector. -/
theorem Derived.dispatches_by_id {ds : List Definition} (hds : Parsed ds) (hm : m.Derived ds)
    (hmethods : (m.methods.map (·.id)).Nodup)
    (hids : (m.types.flatMap fun t => t.constructors.map (·.id)).Nodup) :
    (∀ method ∈ m.methods, ∀ (arguments : List (String × Option Value)) (bytes : Bytes),
      m.encodeRequest method.name arguments = .ok bytes →
      (Object.mk method.id arguments).Readable m method.fields →
      m.decodeRequest bytes =
        .ok (method.name, ⟨method.id, m.canonicalFields ⟨method.id, arguments⟩ method.fields⟩)) ∧
    ∀ t ∈ m.types, t.isBuiltin = false → TargetType.vectorItem? t.name = none →
      ∀ c ∈ t.constructors, ∀ rest : Bytes,
        m.decode (.ofText t.name) (Wire.wordBytes c.id ++ rest) =
          (m.decodeAny (Wire.wordBytes c.id ++ rest)).map Object.toValue := by
  constructor
  · intro method hmethod arguments bytes h harguments
    have hnames : (m.methods.map (·.name)).Nodup := by
      have htags : ((m.methods.map (·.name)).map Naming.tag).Nodup := by
        rw [List.map_map]
        exact hm.nodup_method_tags
      exact htags.of_map
    exact decodeRequest_of_encodeRequest (hm.gated_constructor hds) hnames hmethods hmethod
      (hm.gated_method hds method hmethod) h harguments
  · intro t ht hbuiltin hvector c hc rest
    have hprimitive : TargetType.isPrimitive t.name = false := by
      rw [TargetType.isPrimitive, ← TaggedType.isBuiltin, hbuiltin, Bool.false_and]
    rw [hm.ofText_name hds t ht hvector]
    exact decode_plain_eq_decodeAny hm.nodup_type_names hids ht hprimitive hc rest

end Model

/-- Two types and a method. -/
def postText : String :=
  "page#1 text:string = Page;\nempty#2 = Page;\ntag#3 = Tag;\n---functions---\n" ++
    "send#4 f:# mute:f.0?true pages:f.0?Vector<Page> = Bool;"

def postModel : Model := Model.ofDefinitions (definitionsOf postText)

/-- The arguments of a request, out of order. -/
def postArguments : List (String × Option Value) :=
  [("pages", some (.vector [.object 2 [], .object 1 [("text", some (.string "a"))]])),
    ("mute", some (.bool true))]

/-- A request that is sent back, and a page that any decoder tells by its id. -/
theorem dispatches_by_id_post :
    ∃ method ∈ postModel.methods, method.name = "send" ∧
      (∃ bytes, postModel.encodeRequest "send" postArguments = .ok bytes ∧
        postModel.decodeRequest bytes =
          .ok ("send", ⟨4, postModel.canonicalFields ⟨4, postArguments⟩ method.fields⟩)) ∧
      ∀ rest : Bytes, postModel.decode (.ofText "TLPage") (Wire.wordBytes 2 ++ rest) =
        (postModel.decodeAny (Wire.wordBytes 2 ++ rest)).map Object.toValue := by
  have hrun : (readSchema postText).isOk ∧ (postModel.methods.map (·.id)).Nodup ∧
      (postModel.types.flatMap fun t => t.constructors.map (·.id)).Nodup ∧
      (postModel.encodeRequest "send" postArguments).isOk ∧
      (∃ method ∈ postModel.methods, method.name = "send" ∧ method.id = 4 ∧
        (Object.mk 4 postArguments).Readable postModel method.fields) ∧
      ∃ t ∈ postModel.types, t.name = "TLPage" ∧ t.isBuiltin = false ∧
        TargetType.vectorItem? t.name = none ∧ ∃ c ∈ t.constructors, c.id = 2 := by
    decide +kernel
  obtain ⟨hread, hmethods, hids, hwrite, ⟨method, hmethod, hname, hid, hreadable⟩,
    t, ht, htype, hbuiltin, hvector, c, hc, hconstructor⟩ := hrun
  have hds : Parsed (definitionsOf postText) :=
    .inl ⟨postText, readSchema_eq_ok_definitionsOf hread⟩
  have hm : postModel.Derived (definitionsOf postText) := .ofDefinitions
  have hdispatch := Model.Derived.dispatches_by_id hds hm hmethods hids
  obtain ⟨bytes, hbytes⟩ := exists_of_isOk hwrite
  refine ⟨method, hmethod, hname, ⟨bytes, hbytes, ?_⟩, fun rest => ?_⟩
  · have hrequest := hdispatch.1 method hmethod postArguments bytes (by rwa [hname])
      (by rwa [hid])
    rwa [hname, hid] at hrequest
  · have hobject := hdispatch.2 t ht hbuiltin hvector c hc rest
    rwa [htype, hconstructor] at hobject

/-- A constructor of a vector type. -/
def vectorText : String := "a#1 = Vector<int>;"

def vectorModel : Model := Model.ofDefinitions (definitionsOf vectorText)

/-- The constructor is found by its id. Read as its type it is taken for a vector, which would start
with the id of vectors. -/
theorem vector_type_not_dispatched :
    Parsed (definitionsOf vectorText) ∧ vectorModel.Derived (definitionsOf vectorText) ∧
      (vectorModel.methods.map (·.id)).Nodup ∧
      (vectorModel.types.flatMap fun t => t.constructors.map (·.id)).Nodup ∧
      (∀ d ∈ definitionsOf vectorText, (d.parameters.map (·.name)).Nodup) ∧
      ∃ t ∈ vectorModel.types, t.name = "TLVector<quint32>" ∧ t.isBuiltin = false ∧
        ∃ c ∈ t.constructors, c.id = 1 ∧
          (vectorModel.decodeAny (Wire.wordBytes c.id)).isOk ∧
          (vectorModel.decode (.ofText t.name) (Wire.wordBytes c.id)).isOk = false := by
  have hrun : (readSchema vectorText).isOk ∧ (vectorModel.methods.map (·.id)).Nodup ∧
      (vectorModel.types.flatMap fun t => t.constructors.map (·.id)).Nodup ∧
      (∀ d ∈ definitionsOf vectorText, (d.parameters.map (·.name)).Nodup) ∧
      ∃ t ∈ vectorModel.types, t.name = "TLVector<quint32>" ∧ t.isBuiltin = false ∧
        ∃ c ∈ t.constructors, c.id = 1 ∧
          (vectorModel.decodeAny (Wire.wordBytes c.id)).isOk ∧
          (vectorModel.decode (.ofText t.name) (Wire.wordBytes c.id)).isOk = false := by
    decide +kernel
  exact ⟨.inl ⟨vectorText, readSchema_eq_ok_definitionsOf hrun.1⟩, .ofDefinitions, hrun.2⟩

end TypeLang
