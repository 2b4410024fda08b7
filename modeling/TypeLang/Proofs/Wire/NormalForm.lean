import TypeLang.Proofs.Wire.Finding
import TypeLang.Proofs.Wire.Renaming
import TypeLang.Proofs.Wire.RoundTrip

/-!
# Normal forms

The reader is lenient: it does not look at bits without a field, at the zeros behind a payload, or
at whether a short payload has a long header. None of that gets into the value. Whatever was read
is in normal form: it can be written, and reading finds the value itself in what is written. The
induction goes along the depth of objects, and inside an object along its fields, where it carries
the state of the gates that the flags words read so far decide.
-/
namespace TypeLang

/-- A value that can be written as a type and is found again as it is. -/
structure Model.Normal (m : Model) (type : TargetType) (value : Value) : Prop where
  exists_encode : ∃ bytes, m.encode type value = .ok bytes
  isDecodable : m.isDecodable value type
  received_eq : m.received value type = value

/-- What a normal object holds for a field, if the open gates are those that `isSet` tells. -/
inductive Field.Holds (m : Model) (isSet : FieldGate → Bool) (f : Field) : Option Value → Prop
  | closed {g : FieldGate} (hgate : f.gate = some g) (hset : isSet g = false) : f.Holds m isSet none
  | mark {g : FieldGate} (hgate : f.gate = some g) (hset : isSet g) (hmark : f.isMark) :
    f.Holds m isSet (some (.bool true))
  | payload {v : Value} (hset : ∀ g ∈ f.gate, isSet g) (hmark : f.isMark = false)
    (hv : m.Normal f.type v) : f.Holds m isSet (some v)

/-- An object has one entry for each field that is no flags word, in order, with what the field
holds. -/
structure Object.Settled (m : Model) (isSet : FieldGate → Bool) (o : Object)
    (fields : List Field) : Prop where
  entries : o.fields = (fields.filter fun f => !f.isWord).map fun f => (f.name, o.field? f.name)
  holds : ∀ f ∈ fields, f.isWord = false → f.Holds m isSet (o.field? f.name)
  wordless : ∀ f ∈ fields, f.isWord → o.field? f.name = none

namespace Object.Settled

variable {m : Model} {isSet : FieldGate → Bool} {o : Object} {fields : List Field} {f : Field}
  {g : FieldGate}

/-- In a settled object a field is present exactly when its gate is open. -/
theorem has_eq (h : o.Settled m isSet fields) (hf : f ∈ fields) (hword : f.isWord = false)
    (hgate : f.gate = some g) : o.has f = isSet g := by
  generalize hfield : o.field? f.name = value
  have hholds := hfield ▸ h.holds f hf hword
  cases hholds with
  | closed hgate' hset =>
    obtain rfl : g = _ := Option.some.inj (hgate.symm.trans hgate')
    simp only [Object.has, hfield, hset]
  | mark hgate' hset _ =>
    obtain rfl : g = _ := Option.some.inj (hgate.symm.trans hgate')
    simp only [Object.has, hfield, hset, Bool.true_or]
  | payload hset hmark _ =>
    rw [Object.has_of_value hmark hfield, hset g hgate]

/-- The open gates are those that fields open. -/
theorem opens_eq (h : o.Settled m isSet fields) (hf : f ∈ fields) (hword : f.isWord = false)
    (hgate : f.gate = some g) : o.opens fields g = isSet g := by
  rw [Bool.eq_iff_iff]
  constructor
  · intro hopens
    simp only [opens, List.any_eq_true, Bool.and_eq_true, beq_iff_eq] at hopens
    obtain ⟨k, hk, hsame, hhas⟩ := hopens
    cases hkword : k.isWord with
    | true => simp [Object.has, h.wordless k hk hkword] at hhas
    | false => rwa [h.has_eq hk hkword hsame] at hhas
  · intro hset
    exact opens_of_has hf hgate (by rw [h.has_eq hf hword hgate, hset])

theorem complete (h : o.Settled m isSet fields) : o.Complete fields := by
  intro f hf hword _ g hgate hopens
  rwa [h.opens_eq hf hword hgate, ← h.has_eq hf hword hgate] at hopens

theorem isDecodable (h : o.Settled m isSet fields) (hf : f ∈ fields) (hword : f.isWord = false)
    (hmark : f.isMark = false) {v : Value} (hfield : o.field? f.name = some v) :
    m.isDecodable v f.type := by
  have hholds := hfield ▸ h.holds f hf hword
  cases hholds with
  | mark _ _ hmark' => rw [hmark] at hmark'; cases hmark'
  | payload _ _ hv => exact hv.isDecodable

/-- Reading finds the fields of the object. -/
theorem foundFields_eq (h : o.Settled m isSet fields) :
    o.foundFields fields fields m.received = o.fields := by
  conv_rhs => rw [h.entries]
  refine List.map_congr_left fun f hmem => ?_
  rw [List.mem_filter, Bool.not_eq_true'] at hmem
  obtain ⟨hf, hword⟩ := hmem
  generalize hfield : o.field? f.name = value
  have hholds := hfield ▸ h.holds f hf hword
  rw [Prod.mk.injEq]
  refine ⟨rfl, ?_⟩
  cases hholds with
  | closed hgate hset =>
    exact Object.foundField_of_closed hf hgate ((h.opens_eq hf hword hgate).trans hset)
  | mark hgate hset hmark =>
    rw [Object.foundField_of_mark hmark hgate, h.opens_eq hf hword hgate, hset, if_pos rfl]
  | payload _ hmark hv => rw [Object.foundField_of_value hmark hfield, hv.received_eq]

/-- Every field of the object can be written. -/
theorem exists_encodeField (h : o.Settled m isSet fields) (hf : f ∈ fields) :
    ∃ bytes, (Wire.supply m o.fields).encodeField fields f = .ok bytes := by
  simp only [Wire.Supplied.encodeField, Wire.has_supply, Wire.find?_supply]
  cases hword : f.isWord with
  | true => exact ⟨_, rfl⟩
  | false =>
    generalize hfield : o.field? f.name = value
    have hholds := h.holds f hf hword
    rw [hfield] at hholds
    cases hholds with
    | closed hgate hset =>
      have habsent : o.has f = false := (h.has_eq hf hword hgate).trans hset
      exact ⟨[], by simp [hgate, habsent]⟩
    | mark hgate _ hmark => exact ⟨[], by simp [hgate, hmark]⟩
    | payload _ hmark hv =>
      obtain ⟨bytes, hbytes⟩ := hv.exists_encode
      have hhas := Object.has_of_value hmark hfield
      exact ⟨bytes, by simpa [hhas, hmark, Model.encode] using hbytes⟩

end Object.Settled

namespace Wire

variable {m : Model}

/-! ## Values -/

theorem exists_encodeItems {items : List Value} {item : TargetType}
    (h : ∀ v ∈ items, ∃ bytes, encodeValue m v item = .ok bytes) :
    ∃ bytes, encodeItems m items item = .ok bytes := by
  induction items with
  | nil => exact ⟨[], rfl⟩
  | cons v items ih =>
    obtain ⟨⟨first, hfirst⟩, hrest⟩ := List.forall_mem_cons.mp h
    obtain ⟨rest, hrest⟩ := ih hrest
    exact ⟨first ++ rest, by simp [encodeItems, hfirst, hrest]⟩

/-- Pointers are looked through. -/
theorem normal_pointer {target : TargetType} {v : Value} (h : m.Normal target v) :
    m.Normal (.pointer target) v where
  exists_encode := by
    obtain ⟨bytes, hbytes⟩ := h.exists_encode
    refine ⟨bytes, ?_⟩
    rw [← hbytes, Model.encode, Model.encode, encodeValue.eq_def, encodeValue.eq_def m v target]
    rfl
  isDecodable := by
    have hv := h.isDecodable
    rw [Model.isDecodable.eq_def] at hv ⊢
    exact hv
  received_eq := by
    have hv := h.received_eq
    rw [Model.received.eq_def] at hv ⊢
    exact hv

/-- A vector of normal items that fits its header is normal. -/
theorem normal_vector {item : TargetType} {items : List Value} (hlength : items.length < 2 ^ 32)
    (h : ∀ v ∈ items, m.Normal item v) : m.Normal (.vector item) (.vector items) where
  exists_encode := by
    obtain ⟨bytes, hbytes⟩ := exists_encodeItems fun v hv => (h v hv).exists_encode
    exact ⟨vectorHeader items.length ++ bytes, by
      rw [Model.encode, encodeValue_vector rfl, hbytes]
      rfl⟩
  isDecodable := (Model.isDecodable_vector_iff rfl).mpr ⟨hlength, fun v hv => (h v hv).isDecodable⟩
  received_eq := by
    rw [Model.received_vector rfl, List.map_congr_left fun v hv => (h v hv).received_eq,
      List.map_id']

/-- Numbers, texts and blocks are found as they are. -/
theorem normal_primitive {type : TargetType} {v : Value}
    (h : ∃ bytes, m.encode type v = .ok bytes) (hvector : ∀ items, v ≠ .vector items)
    (hobject : ∀ id fields, v ≠ .object id fields) : m.Normal type v where
  exists_encode := h
  isDecodable := Model.isDecodable_of_primitive (fun _ items _ => hvector items)
    fun _ id fields _ => hobject id fields
  received_eq := Model.received_of_primitive (fun _ items _ => hvector items)
    fun _ id fields _ => hobject id fields

/-- An object whose fields are settled is normal. -/
theorem normal_object {name : String} {id : UInt32} {c : Constructor}
    {fields : List (String × Option Value)} {isSet : FieldGate → Bool}
    (hprimitive : TargetType.isPrimitive name = false) (hc : m.constructorOf? name id = some c)
    (h : (Object.mk id fields).Settled m isSet c.fields) :
    m.Normal (.plain name) (.object id fields) where
  exists_encode := by
    obtain ⟨chunks, hchunks⟩ := exists_mapM fun f hf => h.exists_encodeField hf
    exact ⟨_, (encodeValue_object_eq_ok_iff rfl).mpr ⟨c, chunks, hc, hchunks, rfl⟩⟩
  isDecodable := (Model.isDecodable_object_iff rfl hc).mpr
    ⟨hprimitive, h.complete, fun f hf hword hmark v => h.isDecodable hf hword hmark⟩
  received_eq := by rw [Model.received_object rfl hc, h.foundFields_eq]

theorem finds_primitive {α : Type} {r : Reader α} {p : α → Prop} {type : TargetType}
    {wrap : α → Value} (hr : r.Finds p) (h : ∀ a, p a → ∃ bytes, m.encode type (wrap a) = .ok bytes)
    (hvector : ∀ a items, wrap a ≠ .vector items)
    (hobject : ∀ a id fields, wrap a ≠ .object id fields) :
    Reader.Finds (do return wrap (← r)) (m.Normal type) :=
  finds_map hr fun a ha => normal_primitive (h a ha) (hvector a) (hobject a)

theorem finds_readValue {object : String → Reader Value}
    (hobject : ∀ name, TargetType.isPrimitive name = false →
      (object name).Finds (m.Normal (.plain name))) (type : TargetType) :
    (readValue object type).Finds (m.Normal type) := by
  induction type with
  | pointer target ih => exact fun input v rest h => normal_pointer (ih input v rest h)
  | vector item ih =>
    refine finds_bind finds_readVectorHeader fun length hlength => ?_
    refine finds_map (finds_readItems ih length) fun items hitems => ?_
    exact normal_vector (hitems.1 ▸ hlength) hitems.2
  | plain name =>
    rw [readValue.eq_def]
    -- All numbers and blocks can be written, texts and payloads as far as they fit their headers.
    split
    · contradiction
    · contradiction
    · next heq =>
      cases heq
      exact finds_primitive (finds_true readBool) (fun _ _ => ⟨_, rfl⟩) nofun nofun
    · next heq =>
      cases heq
      exact finds_primitive (finds_true readWord) (fun _ _ => ⟨_, rfl⟩) nofun nofun
    · next heq =>
      cases heq
      exact finds_primitive (finds_true readLong) (fun _ _ => ⟨_, rfl⟩) nofun nofun
    · next heq =>
      cases heq
      exact finds_primitive (finds_true readLong) (fun _ _ => ⟨_, rfl⟩) nofun nofun
    · next heq =>
      cases heq
      exact finds_primitive finds_readString (fun _ => exists_payloadBytes) nofun nofun
    · next heq =>
      cases heq
      exact finds_primitive finds_readPayload (fun _ => exists_payloadBytes) nofun nofun
    · next heq =>
      cases heq
      exact finds_primitive (finds_true (readBlock 16)) (fun _ _ => ⟨_, rfl⟩) nofun nofun
    · next heq =>
      cases heq
      exact finds_primitive (finds_true (readBlock 32)) (fun _ _ => ⟨_, rfl⟩) nofun nofun
    · next heq =>
      cases heq
      refine hobject name ?_
      simp_all [TargetType.isPrimitive, TargetType.isBuiltin, TargetType.builtins,
        TargetType.vectorName]

/-! ## Fields -/

section Fields

variable {value : TargetType → Reader Value} {words : List (String × UInt32)}

/-- A field is found with what holds of it under its gate. -/
theorem finds_readField (hvalue : ∀ type, (value type).Finds (m.Normal type)) (f : Field) :
    (readField value words f).Finds (f.Holds m (isOpen words)) := by
  simp only [readField]
  split
  · next hgate =>
    exact finds_map (hvalue f.type) fun v hv =>
      .payload (by simp [hgate]) (by simp [Field.isMark, hgate]) hv
  · next g hgate =>
    cases hopen : isOpen words g with
    | false => exact finds_pure (.closed hgate hopen)
    | true =>
      cases hmark : f.isMark with
      | true => exact finds_pure (.mark hgate hopen hmark)
      | false =>
        exact finds_map (hvalue f.type) fun v hv => .payload (by simp [hgate, hopen]) hmark hv

/-- What a field holds depends on its own gate only. -/
theorem holds_congr {isSet isSet' : FieldGate → Bool} {f : Field} {v : Option Value}
    (h : ∀ g ∈ f.gate, isSet g = isSet' g) (hv : f.Holds m isSet v) : f.Holds m isSet' v := by
  cases hv with
  | closed hgate hset => exact .closed hgate (by rw [← h _ hgate, hset])
  | mark hgate hset hmark => exact .mark hgate (by rw [← h _ hgate, hset]) hmark
  | payload hset hmark hv => exact .payload (fun g hg => by rw [← h g hg, hset g hg]) hmark hv

/-- The state of the gates is decided once: a word that is read later has another name than those
that were looked at. -/
theorem finds_readFields (hvalue : ∀ type, (value type).Finds (m.Normal type))
    {fields : List Field} {scope : List String}
    (hscope : Scoped Field.declared? Field.needed? scope fields)
    (hnames : (fields.map (·.name)).Nodup) (hnew : ∀ f ∈ fields, f.name ∉ scope) :
    (readFields value words fields).Finds fun entries => ∃ isSet : FieldGate → Bool,
      (∀ g, g.member ∈ scope → isSet g = isOpen words g) ∧
        List.Forall₂ (fun f entry => entry.1 = f.name ∧ f.Holds m isSet entry.2)
          (fields.filter fun f => !f.isWord) entries := by
  induction fields generalizing scope words with
  | nil => exact finds_pure ⟨isOpen words, fun _ _ => rfl, .nil⟩
  | cons f fields ih =>
    rw [List.map_cons, List.nodup_cons] at hnames
    obtain ⟨hneeded, htail⟩ := hscope
    have hnew' := List.forall_mem_cons.mp hnew
    rw [readFields]
    cases hword : f.isWord with
    | true =>
      simp only [Field.declared?, hword, if_true, Option.toList_some, List.singleton_append]
        at htail
      have hfresh : ∀ k ∈ fields, k.name ∉ f.name :: scope := by
        intro k hk hmem
        rcases List.mem_cons.mp hmem with hsame | hmem
        · exact hnames.1 (hsame ▸ List.mem_map_of_mem hk)
        · exact hnew'.2 k hk hmem
      simp only [if_true, List.filter_cons, hword, Bool.not_true, Bool.false_eq_true, if_false]
      refine finds_bind (finds_true _) fun word _ input entries rest hread => ?_
      obtain ⟨isSet, hset, hentries⟩ := ih htail hnames.2 hfresh input entries rest hread
      refine ⟨isSet, fun g hg => ?_, hentries⟩
      have hother : g.member ≠ f.name := fun hsame => hnew'.1 (hsame ▸ hg)
      rw [hset g (List.mem_cons_of_mem _ hg), isOpen, isOpen, List.lookup_cons,
        beq_false_of_ne hother]
    | false =>
      simp only [Field.declared?, hword, Bool.false_eq_true, if_false, Option.toList_none,
        List.nil_append] at htail
      simp only [Bool.false_eq_true, if_false, List.filter_cons, hword, Bool.not_false, if_true]
      refine finds_bind (finds_readField hvalue f) fun first hfirst => ?_
      refine finds_map (ih htail hnames.2 hnew'.2) fun entries hentries => ?_
      obtain ⟨isSet, hset, hentries⟩ := hentries
      refine ⟨isSet, hset, .cons ⟨rfl, holds_congr (fun g hg => ?_) hfirst⟩ hentries⟩
      exact (hset g (hneeded g.member (by simp [Field.needed?, Option.mem_def.mp hg]))).symm

/-- Entries in the order of fields are found under the names of these. -/
theorem entries_of_forall₂ {r : Field → Option Value → Prop} {fields : List Field}
    {entries : List (String × Option Value)}
    (h : List.Forall₂ (fun f entry => entry.1 = f.name ∧ r f entry.2) fields entries)
    (hnames : (fields.map (·.name)).Nodup) :
    entries = (fields.map fun f => (f.name, (entries.lookup f.name).join)) ∧
      ∀ f ∈ fields, r f (entries.lookup f.name).join := by
  induction h with
  | nil => exact ⟨rfl, by simp⟩
  | @cons f entry fields entries hentry _ ih =>
    rw [List.map_cons, List.nodup_cons] at hnames
    obtain ⟨name, value⟩ := entry
    obtain ⟨rfl, hvalue⟩ := hentry
    obtain ⟨heq, hfields⟩ := ih hnames.2
    have hfirst : ((f.name, value) :: entries).lookup f.name = some value := by simp
    have hlater : ∀ k ∈ fields,
        ((f.name, value) :: entries).lookup k.name = entries.lookup k.name := by
      intro k hk
      have hother : k.name ≠ f.name := fun hsame => hnames.1 (hsame ▸ List.mem_map_of_mem hk)
      rw [List.lookup_cons, beq_false_of_ne hother]
    constructor
    · rw [List.map_cons, hfirst, List.map_congr_left fun k hk => by rw [hlater k hk], ← heq]
      rfl
    · refine List.forall_mem_cons.mpr ⟨by rw [hfirst]; exact hvalue, fun k hk => ?_⟩
      rw [hlater k hk]
      exact hfields k hk

/-- Entries that hold of the fields in their order settle the object. -/
theorem settled_of_forall₂ {isSet : FieldGate → Bool} {o : Object} {fields : List Field}
    (h : List.Forall₂ (fun f entry => entry.1 = f.name ∧ f.Holds m isSet entry.2)
      (fields.filter fun f => !f.isWord) o.fields)
    (hnames : (fields.map (·.name)).Nodup) : o.Settled m isSet fields := by
  have hsub : (fields.filter fun f => !f.isWord).map (·.name) |>.Sublist (fields.map (·.name)) :=
    List.filter_sublist.map _
  obtain ⟨hentries, hholds⟩ := entries_of_forall₂ h (hnames.sublist hsub)
  refine ⟨hentries, fun f hf hword => hholds f (List.mem_filter.mpr ⟨hf, by simp [hword]⟩), ?_⟩
  intro f hf hword
  have hnone : o.fields.lookup f.name = none := by
    rw [List.lookup_eq_none_iff]
    intro entry hentry
    rw [hentries] at hentry
    obtain ⟨k, hk, rfl⟩ := List.mem_map.mp hentry
    obtain ⟨hk, hkword⟩ := List.mem_filter.mp hk
    rw [bne_iff_ne]
    intro hsame
    obtain rfl := List.inj_on_of_nodup_map hnames hf hk hsame
    simp [hword] at hkword
  rw [Object.field?, hnone, Option.join_none]

end Fields

/-! ## Objects -/

/-- Every object that is read is normal. -/
theorem finds_readObject (hgated : ∀ t ∈ m.types, ∀ c ∈ t.constructors, Field.Gated c.fields)
    (hnames : m.DistinctMembers) (depth : Nat) {name : String}
    (hprimitive : TargetType.isPrimitive name = false) :
    (readObject m depth name).Finds (m.Normal (.plain name)) := by
  induction depth generalizing name with
  | zero => exact finds_throw _
  | succ depth ih =>
    rw [readObject]
    refine finds_bind (finds_true _) fun id _ => ?_
    split
    · exact finds_throw _
    · next t htype =>
      split
      · exact finds_throw _
      · next c hconstructor =>
        have hc : m.constructorOf? name id = some c := by
          rw [Model.constructorOf?, htype, Option.bind_some, hconstructor]
        obtain ⟨t, ht, hmem⟩ := Model.exists_mem_of_constructorOf? hc
        have hdistinct := hnames t ht c hmem
        refine finds_map (finds_readFields (finds_readValue fun _ => ih)
          (hgated t ht c hmem).inScope hdistinct (by simp)) fun fields hfields => ?_
        obtain ⟨isSet, -, hentries⟩ := hfields
        exact normal_object hprimitive hc (settled_of_forall₂ hentries hdistinct)

theorem finds_normal (hgated : ∀ t ∈ m.types, ∀ c ∈ t.constructors, Field.Gated c.fields)
    (hnames : m.DistinctMembers) (depth : Nat) (type : TargetType) :
    (readValue (readObject m depth) type).Finds (m.Normal type) :=
  finds_readValue (fun _ => finds_readObject hgated hnames depth) type

end Wire

namespace Model

variable {ds : List Definition} {m : Model} {type : TargetType} {value : Value}

/-- Decoding is reading, whatever is left. -/
theorem decode_eq_ok_iff {input : Bytes} :
    m.decode type input = .ok value ↔ ∃ rest, m.read type input = .ok value rest := by
  rw [decode, runReader, EStateM.run]
  cases m.read type input <;> simp

/-- Reading finds normal values only. -/
theorem Derived.normal_of_decode (hds : Parsed ds) (hm : m.Derived ds)
    (hnames : m.DistinctMembers) {input : Bytes} (h : m.decode type input = .ok value) :
    m.Normal type value := by
  obtain ⟨rest, hread⟩ := decode_eq_ok_iff.mp h
  exact Wire.finds_normal (hm.gated_constructor hds) hnames input.length type input value rest hread

/-- A normal value is found again in what is written for it. -/
theorem Derived.decode_encode_of_normal (hds : Parsed ds) (hm : m.Derived ds)
    (h : m.Normal type value) :
    ∃ bytes, m.encode type value = .ok bytes ∧ m.decode type bytes = .ok value := by
  obtain ⟨bytes, hbytes⟩ := h.exists_encode
  have hread := Wire.takes_received (hm.gated_constructor hds) hbytes h.isDecodable
    (Nat.le_refl _) []
  rw [List.append_nil, h.received_eq] at hread
  exact ⟨bytes, hbytes, decode_eq_ok_iff.mpr ⟨[], hread⟩⟩

/-- Whatever a model of a schema reads, from any bytes, it can write, and what it writes it reads as
the same value, if in each constructor the fields have different names. -/
theorem Derived.exists_encode_of_decode (hds : Parsed ds) (hm : m.Derived ds)
    (hnames : m.DistinctMembers) {input : Bytes} (h : m.decode type input = .ok value) :
    ∃ bytes, m.encode type value = .ok bytes ∧ m.decode type bytes = .ok value :=
  hm.decode_encode_of_normal hds (hm.normal_of_decode hds hnames h)

end Model

/-- A type with unused bits, a text and a vector. -/
def lenientText : String := "a#1 flags:# x:flags.0?string y:flags.1?true z:Vector<double> = T;"

def lenientModel : Model := Model.ofDefinitions (definitionsOf lenientText)

/-- An object with a bit that no field has, and a text that has a long header and is padded with
other bytes than zeros. -/
def lenientBytes : Bytes :=
  Wire.wordBytes 1 ++ Wire.wordBytes 0x83 ++ [0xFE, 1, 0, 0, 65, 7, 8, 9] ++ Wire.vectorHeader 1 ++
    Wire.longBytes 0x8000000000000000

/-- The same object as it is written. -/
def strictBytes : Bytes :=
  Wire.wordBytes 1 ++ Wire.wordBytes 0x03 ++ [1, 65, 0, 0] ++ Wire.vectorHeader 1 ++
    Wire.longBytes 0x8000000000000000

/-- Unused bits and padding that is not zero are gone from what is written again. -/
theorem exists_encode_of_decode_lenient :
    ∃ value, lenientModel.decode (.plain "TLT") lenientBytes = .ok value ∧
      lenientModel.encode (.plain "TLT") value = .ok strictBytes ∧
      lenientModel.decode (.plain "TLT") strictBytes = .ok value := by
  have hrun : (readSchema lenientText).isOk ∧ lenientModel.DistinctMembers ∧
      lenientModel.decode (.plain "TLT") lenientBytes >>= lenientModel.encode (.plain "TLT") =
        .ok strictBytes := by decide +kernel
  obtain ⟨hread, hnames, hwrite⟩ := hrun
  have hds : Parsed (definitionsOf lenientText) :=
    .inl ⟨lenientText, readSchema_eq_ok_definitionsOf hread⟩
  obtain ⟨value, hvalue, hstrict⟩ := bind_eq_ok.mp hwrite
  obtain ⟨bytes, hbytes, hagain⟩ :=
    Model.Derived.exists_encode_of_decode hds .ofDefinitions hnames hvalue
  obtain rfl : bytes = strictBytes := Except.ok.inj (hbytes.symm.trans hstrict)
  exact ⟨value, hvalue, hstrict, hagain⟩

end TypeLang
