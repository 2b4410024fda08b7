import TypeLang.Wire.Decode

/-!
# Congruences of readers

What sequencing keeps of readers, the readers of the codec keep too: they are put together from
blocks of bytes by sequencing, and take the reader of objects as an argument. A relation between
readers that sequencing keeps therefore relates the readers of a type over related readers of
objects. A property of readers is the case of a relation that looks at one side only.
-/
namespace TypeLang

open Wire

/-- A relation between readers that sequencing keeps, and in which the readers of a block stand to
themselves. -/
structure Reader.Congruence (R : ∀ {α : Type}, Reader α → Reader α → Prop) : Prop where
  pure : ∀ {α : Type} (a : α), R (Pure.pure a) (Pure.pure a)
  throw : ∀ {α : Type} (e : WireError), R (throw e : Reader α) (throw e)
  bind : ∀ {α β : Type} {r r' : Reader α} {f f' : α → Reader β},
    R r r' → (∀ a, R (f a) (f' a)) → R (r >>= f) (r' >>= f')
  block : ∀ n, R (readBlock n) (readBlock n)

namespace Reader.Congruence

variable {R : ∀ {α : Type}, Reader α → Reader α → Prop} {α β : Type}

theorem map (hR : Congruence R) {r r' : Reader α} (h : R r r') (f : α → β) :
    R (do return f (← r)) (do return f (← r')) := hR.bind h fun a => hR.pure (f a)

theorem discard (hR : Congruence R) {r r' : Reader α} (h : R r r') :
    R (Functor.discard r) (Functor.discard r') := hR.bind h fun _ => hR.pure ()

/-! ## Primitives -/

theorem bytes (hR : Congruence R) (n : Nat) : R (readBytes n) (readBytes n) :=
  hR.map (hR.block n) _

theorem number (hR : Congruence R) (n : Nat) : R (readNumber n) (readNumber n) :=
  hR.map (hR.bytes n) _

theorem word (hR : Congruence R) : R readWord readWord := hR.map (hR.number 4) _

theorem long (hR : Congruence R) : R readLong readLong := hR.map (hR.number 8) _

theorem bool (hR : Congruence R) : R readBool readBool := by
  refine hR.bind hR.word fun id => ?_
  split
  · exact hR.pure true
  · split
    · exact hR.pure false
    · exact hR.throw _

theorem vectorHeader (hR : Congruence R) : R readVectorHeader readVectorHeader := by
  refine hR.bind hR.word fun id => ?_
  split
  · exact hR.number 4
  · exact hR.throw _

theorem payloadHeader (hR : Congruence R) : R readPayloadHeader readPayloadHeader := by
  refine hR.bind (hR.number 1) fun first => ?_
  split
  · exact hR.map (hR.number 3) _
  · exact hR.pure _

theorem payload (hR : Congruence R) : R readPayload readPayload := by
  refine hR.bind hR.payloadHeader fun header => hR.bind (hR.bytes _) fun data => ?_
  exact hR.bind (hR.discard (hR.bytes _)) fun _ => hR.pure data

theorem string (hR : Congruence R) : R readString readString := by
  refine hR.bind hR.payload fun data => ?_
  split
  · exact hR.pure _
  · exact hR.throw _

/-! ## Values -/

theorem items (hR : Congruence R) {item item' : Reader α} (h : R item item') (n : Nat) :
    R (readItems item n) (readItems item' n) := by
  induction n with
  | zero => exact hR.pure []
  | succ n ih => exact hR.bind h fun _ => hR.map ih _

/-- Values are read alike when objects are. -/
theorem value (hR : Congruence R) {object object' : String → Reader Value}
    (h : ∀ name, R (object name) (object' name)) (type : TargetType) :
    R (readValue object type) (readValue object' type) := by
  induction type with
  | pointer target ih => exact ih
  | vector item ih => exact hR.bind hR.vectorHeader fun length => hR.map (hR.items ih length) _
  | plain name =>
    rw [readValue.eq_def, readValue.eq_def]
    split
    · contradiction
    · contradiction
    · exact hR.map hR.bool _
    · exact hR.map hR.word _
    · exact hR.map hR.long _
    · exact hR.map hR.long _
    · exact hR.map hR.string _
    · exact hR.map hR.payload _
    · exact hR.map (hR.block 16) _
    · exact hR.map (hR.block 32) _
    · next heq =>
      cases heq
      exact h name

variable {value value' : TargetType → Reader Value}

theorem field (hR : Congruence R) (h : ∀ type, R (value type) (value' type))
    (words : List (String × UInt32)) (f : Field) :
    R (readField value words f) (readField value' words f) := by
  simp only [readField]
  split
  · exact hR.map (h f.type) _
  · split
    · exact hR.pure none
    · split
      · exact hR.pure _
      · exact hR.map (h f.type) _

/-- Fields are read alike when values are. -/
theorem fields (hR : Congruence R) (h : ∀ type, R (value type) (value' type))
    (words : List (String × UInt32)) (fields : List Field) :
    R (readFields value words fields) (readFields value' words fields) := by
  induction fields generalizing words with
  | nil => exact hR.pure []
  | cons f fields ih =>
    rw [readFields, readFields]
    split
    · exact hR.bind hR.word fun word => ih _
    · exact hR.bind (hR.field h words f) fun first => hR.map (ih words) _

/-- Objects are read alike at every depth. -/
theorem object (hR : Congruence R) (m : Model) (depth : Nat) (name : String) :
    R (readObject m depth name) (readObject m depth name) := by
  induction depth generalizing name with
  | zero => exact hR.throw _
  | succ depth ih =>
    have hfields := hR.fields (hR.value ih) []
    rw [readObject]
    refine hR.bind hR.word fun id => ?_
    split
    · exact hR.throw _
    · split
      · exact hR.throw _
      · exact hR.map (hfields _) _

end Reader.Congruence

/-- A property of readers that sequencing keeps. -/
abbrev Reader.Closed (P : ∀ {α : Type}, Reader α → Prop) : Prop :=
  Reader.Congruence fun {_} r _ => P r

namespace Reader.Closed

variable {P : ∀ {α : Type}, Reader α → Prop} {α : Type}

theorem items (hP : Closed P) {item : Reader α} (h : P item) (n : Nat) : P (readItems item n) :=
  @Congruence.items _ _ hP item item h n

theorem value (hP : Closed P) {object : String → Reader Value} (h : ∀ name, P (object name))
    (type : TargetType) : P (readValue object type) :=
  @Congruence.value _ hP object object h type

variable {value : TargetType → Reader Value}

theorem field (hP : Closed P) (h : ∀ type, P (value type)) (words : List (String × UInt32))
    (f : Field) : P (readField value words f) :=
  @Congruence.field _ value value hP h words f

theorem fields (hP : Closed P) (h : ∀ type, P (value type)) (words : List (String × UInt32))
    (fields : List Field) : P (readFields value words fields) :=
  @Congruence.fields _ value value hP h words fields

theorem object (hP : Closed P) (m : Model) (depth : Nat) (name : String) :
    P (readObject m depth name) := Congruence.object hP m depth name

end Reader.Closed

end TypeLang
