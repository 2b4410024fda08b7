import TypeLang.Proofs.Wire.Canonical

/-!
# What reading finds

A reader goes by the flags words. It finds a gate open as soon as one field behind the gate was
present, so it finds a mark that another field opens the gate of, and it looks for a payload that
is not there when the payload was left out behind an open gate. `Model.received` is what reading
makes of a written value where nothing is looked for in vain, which is what `Model.isDecodable`
says. Readable values are decodable, and what is received of them is canonical.
-/
namespace TypeLang

/-- Whether a name is that of a built-in type whose values are no objects. The name of the vector
template alone stands for a type like any other. -/
def TargetType.isPrimitive (name : String) : Bool := isBuiltin name && name != vectorName

theorem Field.exists_gate_of_isMark {f : Field} (h : f.isMark) : ∃ g, f.gate = some g := by
  simp only [isMark, Bool.and_eq_true] at h
  exact Option.isSome_iff_exists.mp h.1

namespace Object

variable {o : Object} {fields : List Field} {f : Field} {g : FieldGate}

/-- Whether a gate is opened by a field behind it that is present. -/
def opens (o : Object) (fields : List Field) (g : FieldGate) : Bool :=
  fields.any fun f => f.gate == some g && o.has f

theorem opens_of_has (hf : f ∈ fields) (hgate : f.gate = some g) (h : o.has f) :
    o.opens fields g := by
  simp only [opens, List.any_eq_true, Bool.and_eq_true, beq_iff_eq]
  exact ⟨f, hf, hgate, h⟩

theorem has_of_closed (hf : f ∈ fields) (hgate : f.gate = some g) (h : o.opens fields g = false) :
    o.has f = false := Bool.eq_false_iff.mpr fun hhas => by
  rw [opens_of_has hf hgate hhas] at h
  cases h

/-- A field with a payload is not left out behind an open gate. -/
def CompleteAt (o : Object) (fields : List Field) (f : Field) : Prop :=
  f.isMark = false → ∀ g ∈ f.gate, o.opens fields g → o.has f

/-- No payload is left out behind an open gate. -/
def Complete (o : Object) (fields : List Field) : Prop :=
  ∀ f ∈ fields, f.isWord = false → o.CompleteAt fields f

instance (o : Object) (fields : List Field) : Decidable (o.Complete fields) :=
  inferInstanceAs (Decidable (∀ f ∈ fields, _ → _ → ∀ g ∈ f.gate, _ → _))

/-- What is found of a field, when `result` is what is found of its value. -/
def foundField (o : Object) (fields : List Field) (result : Value → TargetType → Value)
    (f : Field) : Option Value :=
  if f.isMark then if f.gate.any (o.opens fields) then some (.bool true) else none
  else (o.field? f.name).map (result · f.type)

/-- What is found of the fields of an object. -/
def foundFields (o : Object) (fields todo : List Field) (result : Value → TargetType → Value) :
    List (String × Option Value) :=
  (todo.filter fun f => !f.isWord).map fun f => (f.name, o.foundField fields result f)

variable {result : Value → TargetType → Value}

theorem foundField_of_value {v : Value} (hmark : f.isMark = false) (h : o.field? f.name = some v) :
    o.foundField fields result f = some (result v f.type) := by
  simp [foundField, hmark, h]

theorem foundField_of_mark (hmark : f.isMark) (hgate : f.gate = some g) :
    o.foundField fields result f = if o.opens fields g then some (.bool true) else none := by
  simp [foundField, hmark, hgate]

/-- Nothing is found behind a closed gate. -/
theorem foundField_of_closed (hf : f ∈ fields) (hgate : f.gate = some g)
    (h : o.opens fields g = false) : o.foundField fields result f = none := by
  cases hmark : f.isMark with
  | true => rw [foundField_of_mark hmark hgate, h, if_neg Bool.false_ne_true]
  | false =>
    have habsent := has_of_closed hf hgate h
    rw [o.has_eq_isSome hmark, Option.isSome_eq_false_iff, Option.isNone_iff_eq_none] at habsent
    simp [foundField, hmark, habsent]

/-! ## Fields that agree behind each gate -/

/-- Where fields agree, a gate is open exactly when the field behind it is present. -/
theorem Agree.opens_eq (h : o.Agree fields) (hf : f ∈ fields) (hgate : f.gate = some g) :
    o.opens fields g = o.has f := by
  rw [Bool.eq_iff_iff]
  constructor
  · intro hopens
    simp only [opens, List.any_eq_true, Bool.and_eq_true, beq_iff_eq] at hopens
    obtain ⟨k, hk, hsame, hhas⟩ := hopens
    rwa [h k hk f hf (by simp [hsame]) (by rw [hsame, hgate])] at hhas
  · exact opens_of_has hf hgate

theorem Agree.complete (h : o.Agree fields) : o.Complete fields := by
  intro f hf _ _ g hgate hopens
  rwa [h.opens_eq hf hgate] at hopens

end Object

namespace Model

variable {m : Model}

/-- The value that reading finds for a value written as a type. -/
def received (m : Model) (value : Value) (type : TargetType) : Value :=
  match type.behindPointers, value with
  | .vector item, .vector items => .vector (items.map fun v => received m v item)
  | .plain name, .object id fields =>
    match m.constructorOf? name id with
    | none => .object id fields
    | some c =>
      .object id ((c.fields.filter fun f => !f.isWord).map fun f =>
        (f.name,
          if f.isMark then
            if f.gate.any ((Object.mk id fields).opens c.fields) then some (.bool true) else none
          else match _h : (Object.mk id fields).field? f.name with
            | none => none
            | some v => some (received m v f.type)))
  | _, value => value
termination_by sizeOf value
decreasing_by
  · have := List.sizeOf_lt_of_mem ‹_›
    simp only [Value.vector.sizeOf_spec]
    omega
  · exact Object.sizeOf_lt_of_field? _h

/-- Whether a value that is written is read back: the length of every vector fits its header, no
object stands for a primitive type, and in no object a payload is left out behind an open gate.
Only what is written is looked at. -/
def isDecodable (m : Model) (value : Value) (type : TargetType) : Bool :=
  match type.behindPointers, value with
  | .vector item, .vector items =>
    decide (items.length < 2 ^ 32) && items.attach.all fun v => isDecodable m v.1 item
  | .plain name, .object id fields =>
    !TargetType.isPrimitive name && (m.constructorOf? name id).all fun c =>
      decide ((Object.mk id fields).Complete c.fields) &&
        c.fields.all fun f => f.isWord || f.isMark ||
          match _h : (Object.mk id fields).field? f.name with
          | none => true
          | some v => isDecodable m v f.type
  | _, _ => true
termination_by sizeOf value
decreasing_by
  · have := List.sizeOf_lt_of_mem v.2
    simp only [Value.vector.sizeOf_spec]
    omega
  · exact Object.sizeOf_lt_of_field? _h

section Equations

variable {type item : TargetType} {name : String} {id : UInt32} {c : Constructor}
  {items : List Value} {fields : List (String × Option Value)}

theorem received_vector (h : type.behindPointers = .vector item) (items : List Value) :
    m.received (.vector items) type = .vector (items.map (m.received · item)) := by
  rw [received.eq_def]
  simp only [h]

/-- Of an object its constructor's fields are received. -/
theorem received_object (h : type.behindPointers = .plain name)
    (hc : m.constructorOf? name id = some c) (fields : List (String × Option Value)) :
    m.received (.object id fields) type =
      .object id ((Object.mk id fields).foundFields c.fields c.fields m.received) := by
  rw [received.eq_def]
  simp only [h, hc, Object.foundFields, Value.object.injEq, true_and]
  refine List.map_congr_left fun f _ => ?_
  simp only [Object.foundField]
  split
  · rfl
  · split <;> simp_all

/-- Only vectors and objects hold fields. -/
theorem received_of_primitive {v : Value}
    (hvector : ∀ item items, type.behindPointers = .vector item → v = .vector items → False)
    (hobject : ∀ name id fields, type.behindPointers = .plain name → v = .object id fields →
      False) : m.received v type = v := by
  rw [received.eq_def]
  split
  · next hbase => exact (hvector _ _ hbase rfl).elim
  · next hbase => exact (hobject _ _ _ hbase rfl).elim
  · rfl

theorem isDecodable_vector_iff (h : type.behindPointers = .vector item) :
    m.isDecodable (.vector items) type ↔
      items.length < 2 ^ 32 ∧ ∀ v ∈ items, m.isDecodable v item := by
  rw [isDecodable.eq_def]
  simp [h]

/-- An object is decodable when its type is none of the primitive ones, no payload is left out
behind an open gate, and every payload is decodable. -/
theorem isDecodable_object_iff (h : type.behindPointers = .plain name)
    (hc : m.constructorOf? name id = some c) :
    m.isDecodable (.object id fields) type ↔
      TargetType.isPrimitive name = false ∧ (Object.mk id fields).Complete c.fields ∧
        ∀ f ∈ c.fields, f.isWord = false → f.isMark = false →
          ∀ v, (Object.mk id fields).field? f.name = some v → m.isDecodable v f.type := by
  have hpayloads : (c.fields.all fun f => f.isWord || f.isMark ||
      match _h : (Object.mk id fields).field? f.name with
      | none => true
      | some v => m.isDecodable v f.type) = true ↔
      ∀ f ∈ c.fields, f.isWord = false → f.isMark = false →
        ∀ v, (Object.mk id fields).field? f.name = some v → m.isDecodable v f.type := by
    rw [List.all_eq_true]
    refine forall₂_congr fun f _ => ?_
    cases f.isWord <;> cases f.isMark <;> split <;> simp_all
  rw [isDecodable.eq_def]
  simp only [h, hc, Option.all_some, Bool.and_eq_true, Bool.not_eq_true', decide_eq_true_eq,
    hpayloads]

/-- Numbers, texts and blocks are always read back. -/
theorem isDecodable_of_primitive {v : Value}
    (hvector : ∀ item items, type.behindPointers = .vector item → v = .vector items → False)
    (hobject : ∀ name id fields, type.behindPointers = .plain name → v = .object id fields →
      False) : m.isDecodable v type := by
  rw [isDecodable.eq_def]
  split
  · next hbase => exact (hvector _ _ hbase rfl).elim
  · next hbase => exact (hobject _ _ _ hbase rfl).elim
  · rfl

end Equations

/-! ## Readable values -/

/-- Where the fields behind each gate agree, a mark is found exactly when it is present. -/
theorem foundFields_eq_canonicalFields {o : Object} {fields : List Field}
    {result : Value → TargetType → Value} (hagree : o.Agree fields)
    (hresult : ∀ f ∈ fields, f.isWord = false → f.isMark = false →
      ∀ v, o.field? f.name = some v → result v f.type = m.canonical v f.type) :
    o.foundFields fields fields result = m.canonicalFields o fields := by
  refine List.map_congr_left fun f hmem => ?_
  rw [List.mem_filter, Bool.not_eq_true'] at hmem
  rw [Prod.mk.injEq]
  refine ⟨rfl, ?_⟩
  cases hmark : f.isMark with
  | true =>
    obtain ⟨g, hgate⟩ := Field.exists_gate_of_isMark hmark
    rw [Object.foundField_of_mark hmark hgate, hagree.opens_eq hmem.1 hgate, canonicalField, hmark,
      if_pos rfl]
  | false =>
    simp only [Object.foundField, canonicalField, hmark, Bool.false_eq_true, if_false]
    cases hfield : o.field? f.name with
    | none => rfl
    | some v => simp only [Option.map_some, hresult f hmem.1 hmem.2 hmark v hfield]

/-- A readable value is read back, in canonical form. -/
theorem isDecodable_of_isReadable {value : Value} {type : TargetType}
    (h : m.isReadable value type) :
    m.isDecodable value type ∧ m.received value type = m.canonical value type := by
  induction value, type using canonical.induct (m := m) with
  | case1 type item items hbase ih =>
    obtain ⟨hlength, hitems⟩ := isReadable_vector hbase h
    rw [isDecodable_vector_iff hbase, received_vector hbase, canonical_vector hbase]
    refine ⟨⟨hlength, fun v hv => (ih v hv (hitems v hv)).1⟩, ?_⟩
    rw [List.map_congr_left fun v hv => (ih v hv (hitems v hv)).2]
  | case2 type name id fields hbase hnone =>
    rw [isReadable.eq_def] at h
    rw [isDecodable.eq_def, received.eq_def, canonical.eq_def]
    simp_all [TargetType.isPrimitive]
  | case3 type name id fields hbase c hc ih =>
    obtain ⟨hgenerated, hagree, hfields⟩ := isReadable_object hbase hc h
    rw [isDecodable_object_iff hbase hc, received_object hbase hc, canonical_object hbase hc]
    have hprimitive : TargetType.isPrimitive name = false := by
      rw [TargetType.isPrimitive, hgenerated, Bool.false_and]
    refine ⟨⟨hprimitive, hagree.complete, fun f hf hword hmark v hv =>
      (ih f v hv (hfields f hf hword hmark v hv)).1⟩, ?_⟩
    rw [foundFields_eq_canonicalFields hagree fun f hf hword hmark v hv =>
      (ih f v hv (hfields f hf hword hmark v hv)).2]
  | case4 type v hvector hobject =>
    rw [received_of_primitive hvector hobject, canonical_of_primitive hvector hobject]
    exact ⟨isDecodable_of_primitive hvector hobject, rfl⟩

end Model

end TypeLang
