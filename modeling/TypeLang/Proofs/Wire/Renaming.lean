import Mathlib.Data.List.Basic
import Mathlib.Data.List.Nodup
import TypeLang.Proofs.Model.Redraft
import TypeLang.Proofs.Success
import TypeLang.Proofs.Wire.Canonical

/-!
# Values under other names

The values of a model are those of a redraft of it, up to the names of the fields in objects. A
field gets the name that the other model has in its place, so a renamed object supplies in each
place what the object supplies there, as long as names tell the fields of a constructor apart in
both models.
-/
namespace TypeLang

namespace Field

/-- The field of a name, with the field in its place in another list. -/
def pair? (fields fields' : List Field) (name : String) : Option (Field × Field) :=
  (fields.zip fields').find? (·.1.name == name)

theorem pair?_of_mem {fields : List Field} {step : Field → Field} {f : Field}
    (hnames : (fields.map (·.name)).Nodup) (hf : f ∈ fields) :
    pair? fields (fields.map step) f.name = some (f, step f) := by
  rw [pair?, ← List.map_prod_left_eq_zip, List.find?_map]
  simp only [Function.comp_def, find?_eq_some_of_nodup hnames hf, Option.map_some]

end Field

/-- Each entry of an object is for one of the fields. -/
def Object.Within (o : Object) (fields : List Field) : Prop :=
  ∀ entry ∈ o.fields, ∃ f ∈ fields, f.name = entry.1

namespace Model

/-- In each constructor the fields have different names. -/
def DistinctMembers (m : Model) : Prop :=
  ∀ t ∈ m.types, ∀ c ∈ t.constructors, (c.fields.map (·.name)).Nodup

instance (m : Model) : Decidable m.DistinctMembers :=
  inferInstanceAs (Decidable (∀ t ∈ m.types, ∀ c ∈ t.constructors, _))

/-- A value of one model as a value of another: the fields of each object get the names that the
other model has in their places. -/
def renameValue (m m' : Model) (value : Value) (type : TargetType) : Value :=
  match type.behindPointers, value with
  | .vector item, .vector items => .vector (items.map fun v => renameValue m m' v item)
  | .plain name, .object id entries =>
    match m.constructorOf? name id, m'.constructorOf? name id with
    | some c, some c' =>
      .object id (entries.map fun entry =>
        match Field.pair? c.fields c'.fields entry.1 with
        | none => entry
        | some (f, f') =>
          (f'.name, match _h : entry.2 with
            | none => none
            | some v => some (renameValue m m' v f.type)))
    | _, _ => .object id entries
  | _, value => value
termination_by sizeOf value
decreasing_by
  · have := List.sizeOf_lt_of_mem ‹_›
    simp only [Value.vector.sizeOf_spec]
    omega
  · have hentry : sizeOf entry < sizeOf entries := List.sizeOf_lt_of_mem ‹_›
    rcases entry with ⟨name, value⟩
    simp only at _h
    subst _h
    simp only [Prod.mk.sizeOf_spec, Option.some.sizeOf_spec] at hentry
    simp only [Value.object.sizeOf_spec]
    omega

/-- An entry of an object of a constructor with the one fields as one of a constructor with the
others. -/
def renameEntry (m m' : Model) (fields fields' : List Field) (entry : String × Option Value) :
    String × Option Value :=
  match Field.pair? fields fields' entry.1 with
  | none => entry
  | some (f, f') => (f'.name, entry.2.map (m.renameValue m' · f.type))

/-- An object of a constructor with the one fields as one of a constructor with the others. -/
def renameObject (m m' : Model) (fields fields' : List Field) (o : Object) : Object :=
  { o with fields := o.fields.map (m.renameEntry m' fields fields') }

/-- Whether the entries of each object in a value are for fields of its constructor. Only entries
that count are looked into. -/
def declares (m : Model) (value : Value) (type : TargetType) : Bool :=
  match type.behindPointers, value with
  | .vector item, .vector items => items.attach.all fun v => declares m v.1 item
  | .plain name, .object id entries =>
    (m.constructorOf? name id).all fun c =>
      entries.all (fun entry => c.fields.any (·.name == entry.1)) &&
        c.fields.all fun f =>
          match _h : (Object.mk id entries).field? f.name with
          | none => true
          | some v => declares m v f.type
  | _, _ => true
termination_by sizeOf value
decreasing_by
  · have := List.sizeOf_lt_of_mem v.2
    simp only [Value.vector.sizeOf_spec]
    omega
  · exact Object.sizeOf_lt_of_field? _h

variable {m m' : Model} {type item : TargetType} {name : String} {id : UInt32}
  {entries : List (String × Option Value)} {c c' : Constructor}

/-- Constructors are looked up alike by both directions of the codec. -/
theorem findConstructor_eq_ok_iff :
    m.findConstructor name id = .ok c ↔ m.constructorOf? name id = some c := by
  simp only [findConstructor, constructorOf?]
  cases m.type? name with
  | none => simp
  | some t =>
    simp only [Option.bind_some]
    cases t.constructor? id <;> simp

theorem renameValue_pointer (v : Value) (target : TargetType) :
    m.renameValue m' v (.pointer target) = m.renameValue m' v target := by
  rw [renameValue.eq_def, renameValue.eq_def m m' v target]
  rfl

theorem renameValue_vector (h : type.behindPointers = .vector item) (items : List Value) :
    m.renameValue m' (.vector items) type = .vector (items.map (m.renameValue m' · item)) := by
  rw [renameValue.eq_def]
  simp only [h]

/-- An object is renamed entry by entry. -/
theorem renameValue_object (h : type.behindPointers = .plain name)
    (hc : m.constructorOf? name id = some c) (hc' : m'.constructorOf? name id = some c') :
    m.renameValue m' (.object id entries) type =
      .object id (entries.map (m.renameEntry m' c.fields c'.fields)) := by
  rw [renameValue.eq_def]
  simp only [h, hc, hc', Value.object.injEq, true_and]
  refine List.map_congr_left fun entry _ => ?_
  simp only [renameEntry]
  cases Field.pair? c.fields c'.fields entry.1 with
  | none => rfl
  | some pair =>
    rcases entry with ⟨key, value⟩
    cases value <;> rfl

/-- An object of no constructor is left as it is. -/
theorem renameValue_object_of_none (h : type.behindPointers = .plain name)
    (hc : m.constructorOf? name id = none) :
    m.renameValue m' (.object id entries) type = .object id entries := by
  rw [renameValue.eq_def]
  simp only [h, hc]

/-- Only vectors and objects hold fields. -/
theorem renameValue_of_primitive {v : Value}
    (hvector : ∀ item items, type.behindPointers = .vector item → v = .vector items → False)
    (hobject : ∀ name id entries, type.behindPointers = .plain name → v = .object id entries →
      False) : m.renameValue m' v type = v := by
  rw [renameValue.eq_def]
  split
  · next hbase => exact (hvector _ _ hbase rfl).elim
  · next hbase => exact (hobject _ _ _ hbase rfl).elim
  · rfl

/-- A value is kept, or it is none of the two that a mark is given as. -/
theorem renameValue_eq_or (m m' : Model) (v : Value) (type : TargetType) :
    m.renameValue m' v type = v ∨
      (∀ b, v ≠ .bool b) ∧ ∀ b, m.renameValue m' v type ≠ .bool b := by
  rw [renameValue.eq_def]
  split
  · exact .inr ⟨nofun, nofun⟩
  · split
    · exact .inr ⟨nofun, nofun⟩
    · exact .inl rfl
  · exact .inl rfl

theorem declares_vector (h : type.behindPointers = .vector item) {items : List Value}
    (hv : m.declares (.vector items) type) : ∀ v ∈ items, m.declares v item := by
  rw [declares.eq_def] at hv
  simpa [h] using hv

/-- The constructor of a declared object has a field for each entry, and declares its value. -/
theorem declares_object (h : type.behindPointers = .plain name)
    (hc : m.constructorOf? name id = some c) (hv : m.declares (.object id entries) type) :
    (Object.mk id entries).Within c.fields ∧
      ∀ f ∈ c.fields, ∀ v, (Object.mk id entries).field? f.name = some v →
        m.declares v f.type := by
  rw [declares.eq_def] at hv
  simp only [h, hc, Option.all_some, Bool.and_eq_true, List.all_eq_true, List.any_eq_true,
    beq_iff_eq] at hv
  refine ⟨hv.1, fun f hf v hfield => ?_⟩
  have hvalue := hv.2 f hf
  split at hvalue <;> simp_all

end Model

/-! ## Fields that names tell apart -/

namespace Field

/-- A redraft that keeps apart fields whose names tell them apart. -/
structure Faithful (fields : List Field) (step : Field → Field) : Prop
    extends Redraft fields step where
  gated : Gated fields
  names : (fields.map (·.name)).Nodup
  names' : ((fields.map step).map (·.name)).Nodup

variable {fields : List Field} {step : Field → Field} {f g : Field}

theorem Faithful.eq_of_name (h : Faithful fields step) (hf : f ∈ fields) (hg : g ∈ fields)
    (hname : f.name = g.name) : f = g := List.inj_on_of_nodup_map h.names hf hg hname

/-- A faithful renaming keeps names apart. -/
theorem Faithful.name_eq_iff (h : Faithful fields step) (hf : f ∈ fields) (hg : g ∈ fields) :
    (step f).name = (step g).name ↔ f.name = g.name := by
  constructor
  · intro hname
    have hnames := h.names'
    rw [List.map_map] at hnames
    rw [List.inj_on_of_nodup_map hnames hf hg hname]
  · intro hname
    rw [h.eq_of_name hf hg hname]

theorem Faithful.name_beq (h : Faithful fields step) (hf : f ∈ fields) (hg : g ∈ fields) :
    ((step f).name == (step g).name) = (f.name == g.name) := by
  rw [Bool.eq_iff_iff, beq_iff_eq, beq_iff_eq, h.name_eq_iff hf hg]

end Field

theorem Constructor.Redraft.exists_faithful {c c' : Constructor} (h : c.Redraft c')
    (hnames : (c.fields.map (·.name)).Nodup) (hnames' : (c'.fields.map (·.name)).Nodup) :
    ∃ step, Field.Faithful c.fields step ∧ c'.fields = c.fields.map step := by
  obtain ⟨step, hstep, heq⟩ := h.fields
  exact ⟨step, ⟨hstep, h.gated, hnames, heq ▸ hnames'⟩, heq⟩

namespace Model

variable {m m' : Model} {fields : List Field} {step : Field → Field} {f : Field}

theorem renameEntry_of_mem (h : Field.Faithful fields step) (hf : f ∈ fields)
    (value : Option Value) :
    m.renameEntry m' fields (fields.map step) (f.name, value) =
      ((step f).name, value.map (m.renameValue m' · f.type)) := by
  simp only [renameEntry, Field.pair?_of_mem h.names hf]

/-- In the redraft the same constructors are found, with fields that names tell apart if they do so
in each of the two models. -/
theorem Redraft.exists_faithful (h : m.Redraft m') (hnames : m.DistinctMembers)
    (hnames' : m'.DistinctMembers) (name : String) (id : UInt32) :
    (∃ e, m.findConstructor name id = .error e ∧ m'.findConstructor name id = .error e) ∨
      ∃ c c' step, m.findConstructor name id = .ok c ∧ m'.findConstructor name id = .ok c' ∧
        Field.Faithful c.fields step ∧ c'.fields = c.fields.map step := by
  rcases h.findConstructor name id with herror | ⟨c, c', hc, hc', hredraft⟩
  · exact .inl herror
  · obtain ⟨t, ht, hmem⟩ := exists_mem_of_constructorOf? (findConstructor_eq_ok_iff.mp hc)
    obtain ⟨t', ht', hmem'⟩ := exists_mem_of_constructorOf? (findConstructor_eq_ok_iff.mp hc')
    obtain ⟨step, hstep, heq⟩ := hredraft.exists_faithful (hnames t ht c hmem)
      (hnames' t' ht' c' hmem')
    exact .inr ⟨c, c', step, hc, hc', hstep, heq⟩

end Model

end TypeLang
