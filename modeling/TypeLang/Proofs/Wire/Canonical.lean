import Mathlib.Algebra.Group.Nat.Defs
import TypeLang.Proofs.Model.Lookup
import TypeLang.Wire.Decode

/-!
# Canonical values

What reading makes of a value that was written. Numbers and texts are kept, vectors and pointers are
looked through, and an object gets the fields of its constructor, in schema order and without flags
words. Fields that the constructor does not have are dropped.

Not every value that can be written is read back: the writer does not check that the fields behind
one gate are given together, it counts the items of a vector modulo `2 ^ 32`, and it writes an
object of a type whose target is built in, which no reader looks for. `Model.isReadable` excludes
the three.
-/
namespace TypeLang

namespace Object

/-- Whether an object has a field. A mark given as false is not there. -/
def has (o : Object) (f : Field) : Bool :=
  match o.field? f.name with
  | none => false
  | some (.bool set) => set || !f.isMark
  | some _ => true

theorem has_eq_isSome (o : Object) {f : Field} (h : f.isMark = false) :
    o.has f = (o.field? f.name).isSome := by
  simp only [has]
  split <;> simp_all

theorem has_of_value {o : Object} {f : Field} {v : Value} (hmark : f.isMark = false)
    (h : o.field? f.name = some v) : o.has f := by
  rw [o.has_eq_isSome hmark, h, Option.isSome_some]

theorem has_of_ne_bool {o : Object} {f : Field} {v : Value} (h : o.field? f.name = some v)
    (hv : ∀ b, v ≠ .bool b) : o.has f = true := by
  simp only [has, h]

/-- The fields behind one gate are all present or all absent. -/
def Agree (o : Object) (fields : List Field) : Prop :=
  ∀ f ∈ fields, ∀ h ∈ fields, f.gate.isSome → f.gate = h.gate → o.has f = o.has h

instance (o : Object) (fields : List Field) : Decidable (o.Agree fields) :=
  inferInstanceAs (Decidable (∀ f ∈ fields, ∀ h ∈ fields, _ → _))

/-- The value of a field lies inside the object. -/
theorem sizeOf_lt_of_field? {id : UInt32} {fields : List (String × Option Value)} {name : String}
    {v : Value} (h : (Object.mk id fields).field? name = some v) :
    sizeOf v < sizeOf (Value.object id fields) := by
  simp only [field?, Option.join_eq_some_iff] at h
  have hfields : sizeOf v < sizeOf fields := by
    induction fields with
    | nil => simp at h
    | cons entry fields ih =>
      rcases entry with ⟨key, value⟩
      rw [List.lookup_cons] at h
      split at h
      · cases h
        simp only [List.cons.sizeOf_spec, Prod.mk.sizeOf_spec, Option.some.sizeOf_spec]
        omega
      · have := ih h
        simp only [List.cons.sizeOf_spec]
        omega
  simp only [Value.object.sizeOf_spec]
  omega

end Object

namespace Model

variable (m : Model)

/-- The constructor of an id in the type of a name. -/
def constructorOf? (name : String) (id : UInt32) : Option Constructor :=
  (m.type? name).bind (·.constructor? id)

theorem exists_mem_of_constructorOf? {m : Model} {name : String} {id : UInt32} {c : Constructor}
    (h : m.constructorOf? name id = some c) : ∃ t ∈ m.types, c ∈ t.constructors := by
  obtain ⟨t, ht, hc⟩ := Option.bind_eq_some_iff.mp h
  exact ⟨t, (mem_types_of_type? ht).1, List.mem_of_find?_eq_some hc⟩

/-- The value that reading gives back for a value written as a type. -/
def canonical (value : Value) (type : TargetType) : Value :=
  match type.behindPointers, value with
  | .vector item, .vector items => .vector (items.map fun v => canonical v item)
  | .plain name, .object id fields =>
    match m.constructorOf? name id with
    | none => .object id fields
    | some c =>
      .object id ((c.fields.filter fun f => !f.isWord).map fun f =>
        (f.name,
          if f.isMark then if (Object.mk id fields).has f then some (.bool true) else none
          else match _h : (Object.mk id fields).field? f.name with
            | none => none
            | some v => some (canonical v f.type)))
  | _, value => value
termination_by sizeOf value
decreasing_by
  · have := List.sizeOf_lt_of_mem ‹_›
    simp only [Value.vector.sizeOf_spec]
    omega
  · exact Object.sizeOf_lt_of_field? _h

/-- A field of an object in canonical form. -/
def canonicalField (o : Object) (f : Field) : Option Value :=
  if f.isMark then if o.has f then some (.bool true) else none
  else (o.field? f.name).map (m.canonical · f.type)

/-- The fields of an object in canonical form. -/
def canonicalFields (o : Object) (fields : List Field) : List (String × Option Value) :=
  (fields.filter fun f => !f.isWord).map fun f => (f.name, m.canonicalField o f)

variable {m}

theorem canonical_vector {type item : TargetType} (h : type.behindPointers = .vector item)
    (items : List Value) :
    m.canonical (.vector items) type = .vector (items.map (m.canonical · item)) := by
  rw [canonical.eq_def]
  simp only [h]

/-- An object in canonical form has the fields of its constructor in order. -/
theorem canonical_object {type : TargetType} {name : String} {id : UInt32} {c : Constructor}
    (h : type.behindPointers = .plain name) (hc : m.constructorOf? name id = some c)
    (fields : List (String × Option Value)) :
    m.canonical (.object id fields) type =
      .object id (m.canonicalFields ⟨id, fields⟩ c.fields) := by
  rw [canonical.eq_def]
  simp only [h, hc, canonicalFields, Value.object.injEq, true_and]
  refine List.map_congr_left fun f _ => ?_
  simp only [canonicalField]
  split
  · rfl
  · split <;> simp_all

/-- Only vectors and objects hold fields. -/
theorem canonical_of_primitive {type : TargetType} {v : Value}
    (hvector : ∀ item items, type.behindPointers = .vector item → v = .vector items → False)
    (hobject : ∀ name id fields, type.behindPointers = .plain name → v = .object id fields →
      False) : m.canonical v type = v := by
  rw [canonical.eq_def]
  split
  · next hbase => exact (hvector _ _ hbase rfl).elim
  · next hbase => exact (hobject _ _ _ hbase rfl).elim
  · rfl

/-! ## Readable values -/

/-- Whether nothing in a value keeps a reader from getting it back: the length of every vector fits
its header, objects stand for generated types only, and in each object the fields behind one gate
are all present or all absent. Only what is written is looked at. -/
def isReadable (m : Model) (value : Value) (type : TargetType) : Bool :=
  match type.behindPointers, value with
  | .vector item, .vector items =>
    decide (items.length < 2 ^ 32) && items.attach.all fun v => isReadable m v.1 item
  | .plain name, .object id fields =>
    !TargetType.isBuiltin name && (m.constructorOf? name id).all fun c =>
      decide ((Object.mk id fields).Agree c.fields) &&
        c.fields.all fun f => f.isWord || f.isMark ||
          match _h : (Object.mk id fields).field? f.name with
          | none => true
          | some v => isReadable m v f.type
  | _, _ => true
termination_by sizeOf value
decreasing_by
  · have := List.sizeOf_lt_of_mem v.2
    simp only [Value.vector.sizeOf_spec]
    omega
  · exact Object.sizeOf_lt_of_field? _h

theorem isReadable_vector {type item : TargetType} (h : type.behindPointers = .vector item)
    {items : List Value} (hv : m.isReadable (.vector items) type) :
    items.length < 2 ^ 32 ∧ ∀ v ∈ items, m.isReadable v item := by
  rw [isReadable.eq_def] at hv
  simpa [h] using hv

/-- A readable object agrees with its constructor, and its payloads are readable. -/
theorem isReadable_object {type : TargetType} {name : String} {id : UInt32} {c : Constructor}
    {fields : List (String × Option Value)} (h : type.behindPointers = .plain name)
    (hc : m.constructorOf? name id = some c) (hv : m.isReadable (.object id fields) type) :
    TargetType.isBuiltin name = false ∧ (Object.mk id fields).Agree c.fields ∧
      ∀ f ∈ c.fields, f.isWord = false → f.isMark = false →
        ∀ v, (Object.mk id fields).field? f.name = some v → m.isReadable v f.type := by
  rw [isReadable.eq_def] at hv
  simp only [h, hc, Option.all_some, Bool.and_eq_true, Bool.not_eq_true', decide_eq_true_eq,
    List.all_eq_true] at hv
  refine ⟨hv.1, hv.2.1, fun f hf hword hmark v hfield => ?_⟩
  have hvalue := hv.2.2 f hf
  rw [hword, hmark] at hvalue
  split at hvalue <;> simp_all

end Model

/-! ## Vectors and objects at the writer -/

namespace Wire

theorem encodeValue_vector {m : Model} {type item : TargetType}
    (h : type.behindPointers = .vector item) (items : List Value) :
    encodeValue m (.vector items) type = do
      return vectorHeader items.length ++ (← encodeItems m items item) := by
  rw [encodeValue.eq_def]
  simp only [h]

/-- The writer looks fields up where the object has them. -/
theorem find?_supply (m : Model) (o : Object) (name : String) :
    (supply m o.fields).find? name = (o.field? name).map fun v => (v, encodeValue m v) := by
  rcases o with ⟨id, fields⟩
  simp only [Supplied.find?, Object.field?]
  induction fields with
  | nil => simp [supply]
  | cons entry fields ih =>
    rcases entry with ⟨key, value | value⟩ <;>
    · simp only [supply, List.lookup_cons]
      split
      · rfl
      · exact ih

theorem has_supply (m : Model) (o : Object) (f : Field) :
    (supply m o.fields).has f = o.has f := by
  simp only [Supplied.has, Object.has, find?_supply]
  cases o.field? f.name with
  | none => rfl
  | some v => cases v <;> rfl

end Wire

end TypeLang
