import TypeLang.Proofs.Wire.Delimited
import TypeLang.Proofs.Wire.RoundTrip

/-!
# Reading comes to an end

`Ends` lays down call by call how a value is read, with no bound on how deep objects nest: it holds
of an input and a result when finitely many calls lead from the one to the other. Every input has
exactly one result, and it is the one that `Model.read` gives. The calls come to an end since each
of them reads a smaller type, one item or field less, or, behind the id of an object, a shorter
input.
-/
namespace TypeLang

namespace Wire

/-- What reading comes to: something that was read, or an error; and what is left of the input. -/
abbrev ReadResult (α : Type) := EStateM.Result WireError Bytes α

variable {α β : Type}

/-- The result with something made of what was read. -/
def mapResult (f : α → β) : ReadResult α → ReadResult β
  | .ok a rest => .ok (f a) rest
  | .error e rest => .error e rest

/-- Reads a value of a primitive type. -/
def readPrimitive (name : String) : Reader Value :=
  readValue (fun _ => throw .endOfInput) (.plain name)

/-- What a field is without a look at the input: absent behind a closed gate, or a mark. -/
def unsent? (words : List (String × UInt32)) (f : Field) : Option (Option Value) :=
  match f.gate with
  | none => none
  | some g =>
    if !isOpen words g then some none
    else if f.isMark then some (some (.bool true))
    else none

/-- What is read by one call. -/
inductive Call where
  | value (type : TargetType)
  | items (item : TargetType) (count : Nat)
  /-- Fields behind the flags words read so far. -/
  | fields (words : List (String × UInt32)) (fields : List Field)

/-- What a call reads. -/
abbrev Call.Result : Call → Type
  | value _ => Value
  | items .. => List Value
  | fields .. => List (String × Option Value)

/-- A call on an input ends with a result. -/
inductive Ends (m : Model) : (call : Call) → Bytes → ReadResult call.Result → Prop
  | pointer {target input} {result : ReadResult Value}
      (htarget : Ends m (.value target) input result) :
      Ends m (.value (.pointer target)) input result
  | vector {item input length mid} {result : ReadResult (List Value)}
      (hheader : readVectorHeader input = .ok length mid)
      (hitems : Ends m (.items item length) mid result) :
      Ends m (.value (.vector item)) input (mapResult Value.vector result)
  | noVector {item input e rest} (hheader : readVectorHeader input = .error e rest) :
      Ends m (.value (.vector item)) input (.error e rest)
  | primitive {name input} (hname : TargetType.isPrimitive name) :
      Ends m (.value (.plain name)) input (readPrimitive name input)
  | object {name input id mid t c} {result : ReadResult (List (String × Option Value))}
      (hname : TargetType.isPrimitive name = false) (hid : readWord input = .ok id mid)
      (htype : m.type? name = some t) (hconstructor : t.constructor? id = some c)
      (hfields : Ends m (.fields [] c.fields) mid result) :
      Ends m (.value (.plain name)) input (mapResult (Value.object id) result)
  | noId {name input e rest} (hname : TargetType.isPrimitive name = false)
      (hid : readWord input = .error e rest) : Ends m (.value (.plain name)) input (.error e rest)
  | noType {name input id mid} (hname : TargetType.isPrimitive name = false)
      (hid : readWord input = .ok id mid) (htype : m.type? name = none) :
      Ends m (.value (.plain name)) input (.error (.unknownType name) mid)
  | noConstructor {name input id mid t} (hname : TargetType.isPrimitive name = false)
      (hid : readWord input = .ok id mid) (htype : m.type? name = some t)
      (hconstructor : t.constructor? id = none) :
      Ends m (.value (.plain name)) input (.error (.unexpectedConstructor id) mid)
  | noItems {item input} : Ends m (.items item 0) input (.ok ([] : List Value) input)
  | item {item count input v mid} {result : ReadResult (List Value)}
      (hfirst : Ends m (.value item) input (.ok v mid))
      (hrest : Ends m (.items item count) mid result) :
      Ends m (.items item (count + 1)) input (mapResult (List.cons v) result)
  | noItem {item count input e rest} (hfirst : Ends m (.value item) input (.error e rest)) :
      Ends m (.items item (count + 1)) input (.error e rest)
  | noFields {words input} :
      Ends m (.fields words []) input (.ok ([] : List (String × Option Value)) input)
  | word {words f fields input word mid} {result : ReadResult (List (String × Option Value))}
      (hword : f.isWord) (hread : readWord input = .ok word mid)
      (hrest : Ends m (.fields ((f.name, word) :: words) fields) mid result) :
      Ends m (.fields words (f :: fields)) input result
  | noWord {words f fields input e rest} (hword : f.isWord)
      (hread : readWord input = .error e rest) :
      Ends m (.fields words (f :: fields)) input (.error e rest)
  | unsent {words f fields input found} {result : ReadResult (List (String × Option Value))}
      (hword : f.isWord = false) (hunsent : unsent? words f = some found)
      (hrest : Ends m (.fields words fields) input result) :
      Ends m (.fields words (f :: fields)) input (mapResult (List.cons (f.name, found)) result)
  | field {words f fields input v mid} {result : ReadResult (List (String × Option Value))}
      (hword : f.isWord = false) (hsent : unsent? words f = none)
      (hfirst : Ends m (.value f.type) input (.ok v mid))
      (hrest : Ends m (.fields words fields) mid result) :
      Ends m (.fields words (f :: fields)) input (mapResult (List.cons (f.name, some v)) result)
  | noField {words f fields input e rest} (hword : f.isWord = false)
      (hsent : unsent? words f = none) (hfirst : Ends m (.value f.type) input (.error e rest)) :
      Ends m (.fields words (f :: fields)) input (.error e rest)

/-! ## Steps of readers -/

variable {r : Reader α} {input mid rest : Bytes} {a : α}

theorem bind_of_ok (h : r input = .ok a mid) (f : α → Reader β) : (r >>= f) input = f a mid := by
  change EStateM.bind r f input = _
  rw [EStateM.bind, h]

theorem map_apply (r : Reader α) (f : α → β) (input : Bytes) :
    (do return f (← r) : Reader β) input = mapResult f (r input) := by
  change EStateM.bind r (fun a => EStateM.pure (f a)) input = _
  rw [EStateM.bind]
  cases r input <;> rfl

theorem length_le_of_consumes {n : Nat} (hr : r.Consumes n) (h : r input = .ok a mid) :
    mid.length + n ≤ input.length := by
  obtain ⟨taken, rfl, htaken⟩ := hr input a mid h
  rw [List.length_append]
  omega

variable {m : Model} {object : String → Reader Value} {value : TargetType → Reader Value}
  {words : List (String × UInt32)} {f : Field} {fields : List Field} {depth : Nat}

/-- What is read of a primitive type does not depend on how objects are read. -/
theorem readValue_of_isPrimitive {name : String} (h : TargetType.isPrimitive name) :
    readValue object (.plain name) = readPrimitive name := by
  simp only [TargetType.isPrimitive, TargetType.isBuiltin, TargetType.builtins,
    TargetType.vectorName, List.contains_cons, List.contains_nil, Bool.and_eq_true, Bool.or_eq_true,
    beq_iff_eq, bne_iff_ne, Bool.or_false] at h
  obtain ⟨rfl | rfl | rfl | rfl | rfl | rfl | rfl | rfl | rfl, hvector⟩ := h
  all_goals first | rfl | exact absurd rfl hvector

theorem readField_of_unsent {found : Option Value} (h : unsent? words f = some found) :
    readField value words f = pure found := by
  simp only [unsent?] at h
  simp only [readField]
  grind

theorem readField_of_sent (h : unsent? words f = none) :
    readField value words f = do return some (← value f.type) := by
  simp only [unsent?] at h
  simp only [readField]
  grind

theorem readFields_cons_of_isWord (h : f.isWord) :
    readFields value words (f :: fields) =
      readWord >>= fun word => readFields value ((f.name, word) :: words) fields := by
  rw [readFields, if_pos h]

theorem readFields_cons (h : f.isWord = false) :
    readFields value words (f :: fields) = do
      let first ← readField value words f
      return (f.name, first) :: (← readFields value words fields) := by
  rw [readFields, h]
  rfl

/-! ## The result that is computed -/

/-- The reader of a call, with at most `depth` objects inside each other. -/
def Call.reader (m : Model) (depth : Nat) : (call : Call) → Reader call.Result
  | .value type => readValue (readObject m depth) type
  | .items item count => readItems (readValue (readObject m depth) item) count
  | .fields words fields => readFields (readValue (readObject m depth)) words fields

/-- No call gives bytes back. -/
theorem Call.consumes_reader (m : Model) (depth : Nat) (call : Call) :
    (call.reader m depth).Consumes 0 := by
  have hvalue : ∀ type, (readValue (readObject m depth) type).Consumes 0 := fun type =>
    consumes_zero (consumes_readValue (consumes_readObject m depth) type)
  cases call with
  | value type => exact hvalue type
  | items item count => exact closed_consumes.items (hvalue item) count
  | fields words fields => exact closed_consumes.fields hvalue words fields

/-- What calls lead to is what is computed at any depth above the length of the input. -/
theorem Ends.reader_eq {call : Call} {result : ReadResult call.Result}
    (h : Ends m call input result) (hdepth : input.length < depth) :
    call.reader m depth input = result := by
  induction h generalizing depth with
  | pointer _ ih => exact ih hdepth
  | vector hheader _ ih =>
    have hmid := length_le_of_consumes consumes_readVectorHeader hheader
    rw [Call.reader, readValue, bind_of_ok hheader, map_apply]
    exact congrArg _ (ih (by omega))
  | noVector hheader => exact bind_of_error hheader _
  | primitive hname => rw [Call.reader, readValue_of_isPrimitive hname]
  | object hname hid htype hconstructor _ ih =>
    obtain ⟨depth, rfl⟩ : ∃ d, depth = d + 1 := ⟨depth - 1, by omega⟩
    have hmid := length_le_of_consumes consumes_readWord hid
    rw [Call.reader, readValue_of_isPrimitive_eq_false hname, readObject, bind_of_ok hid, htype]
    simp only [hconstructor]
    rw [map_apply]
    exact congrArg _ (ih (by omega))
  | noId hname hid =>
    obtain ⟨depth, rfl⟩ : ∃ d, depth = d + 1 := ⟨depth - 1, by omega⟩
    rw [Call.reader, readValue_of_isPrimitive_eq_false hname, readObject, bind_of_error hid]
  | noType hname hid htype =>
    obtain ⟨depth, rfl⟩ : ∃ d, depth = d + 1 := ⟨depth - 1, by omega⟩
    rw [Call.reader, readValue_of_isPrimitive_eq_false hname, readObject, bind_of_ok hid, htype]
    rfl
  | noConstructor hname hid htype hconstructor =>
    obtain ⟨depth, rfl⟩ : ∃ d, depth = d + 1 := ⟨depth - 1, by omega⟩
    rw [Call.reader, readValue_of_isPrimitive_eq_false hname, readObject, bind_of_ok hid, htype]
    simp only [hconstructor]
    rfl
  | noItems => rfl
  | item _ _ ihfirst ihrest =>
    have hfirst : readValue (readObject m depth) _ _ = _ := ihfirst hdepth
    have hmid := length_le_of_consumes (Call.consumes_reader m depth (.value _)) hfirst
    rw [Call.reader, readItems, bind_of_ok hfirst, map_apply]
    exact congrArg _ (ihrest (by omega))
  | noItem _ ih => exact bind_of_error (ih hdepth) _
  | noFields => rfl
  | word hword hread _ ih =>
    have hmid := length_le_of_consumes consumes_readWord hread
    rw [Call.reader, readFields_cons_of_isWord hword, bind_of_ok hread]
    exact ih (by omega)
  | noWord hword hread =>
    rw [Call.reader, readFields_cons_of_isWord hword, bind_of_error hread]
  | unsent hword hunsent _ ih =>
    rw [Call.reader, readFields_cons hword, readField_of_unsent hunsent, pure_bind, map_apply]
    exact congrArg _ (ih hdepth)
  | field hword hsent _ _ ihfirst ihrest =>
    have hfirst : readValue (readObject m depth) _ _ = _ := ihfirst hdepth
    have hmid := length_le_of_consumes (Call.consumes_reader m depth (.value _)) hfirst
    have hfield := (map_apply _ some _).trans (congrArg _ hfirst)
    rw [Call.reader, readFields_cons hword, readField_of_sent hsent, bind_of_ok hfield, map_apply]
    exact congrArg _ (ihrest (by omega))
  | noField hword hsent _ ih =>
    rw [Call.reader, readFields_cons hword, readField_of_sent hsent]
    exact bind_of_error (bind_of_error (ih hdepth) _) _

/-! ## Every call ends -/

/-- Calls that read values end on inputs of at most `n` bytes. -/
def EndsUpTo (m : Model) (n : Nat) : Prop :=
  ∀ type input, input.length ≤ n → ∃ result, Ends m (.value type) input result

theorem Ends.length_le {call : Call} {a : call.Result} (h : Ends m call input (.ok a mid)) :
    mid.length ≤ input.length :=
  length_le_of_consumes (call.consumes_reader m _) (h.reader_eq (Nat.lt_succ_self _))

/-- Items come to an end when every item does. -/
theorem exists_ends_items {n : Nat} {item : TargetType}
    (hitem : ∀ input : Bytes, input.length ≤ n → ∃ result, Ends m (.value item) input result)
    (count : Nat) (hinput : input.length ≤ n) :
    ∃ result, Ends m (.items item count) input result := by
  induction count generalizing input with
  | zero => exact ⟨_, .noItems⟩
  | succ count ih =>
    obtain ⟨first, hfirst⟩ := hitem input hinput
    cases first with
    | error e rest => exact ⟨_, .noItem hfirst⟩
    | ok v mid =>
      obtain ⟨result, hrest⟩ := ih (Nat.le_trans hfirst.length_le hinput)
      exact ⟨_, .item hfirst hrest⟩

/-- Fields come to an end when values do. -/
theorem exists_ends_fields {n : Nat} (hvalue : EndsUpTo m n) (words : List (String × UInt32))
    (fields : List Field) (hinput : input.length ≤ n) :
    ∃ result, Ends m (.fields words fields) input result := by
  induction fields generalizing words input with
  | nil => exact ⟨_, .noFields⟩
  | cons f fields ih =>
    cases hword : f.isWord with
    | true =>
      cases hread : readWord input with
      | error e rest => exact ⟨_, .noWord hword hread⟩
      | ok word mid =>
        have hmid := length_le_of_consumes consumes_readWord hread
        obtain ⟨result, hrest⟩ := ih ((f.name, word) :: words) (show mid.length ≤ n by omega)
        exact ⟨_, .word hword hread hrest⟩
    | false =>
      cases hsent : unsent? words f with
      | some found =>
        obtain ⟨result, hrest⟩ := ih words hinput
        exact ⟨_, .unsent hword hsent hrest⟩
      | none =>
        obtain ⟨first, hfirst⟩ := hvalue f.type input hinput
        cases first with
        | error e rest => exact ⟨_, .noField hword hsent hfirst⟩
        | ok v mid =>
          obtain ⟨result, hrest⟩ := ih words (Nat.le_trans hfirst.length_le hinput)
          exact ⟨_, .field hword hsent hfirst hrest⟩

/-- A call on a value leads to calls on smaller types, or, behind the id of an object, on shorter
inputs. -/
theorem exists_ends_value {n : Nat} (hshorter : ∀ k < n, EndsUpTo m k) (type : TargetType)
    (hinput : input.length ≤ n) : ∃ result, Ends m (.value type) input result := by
  induction type generalizing input with
  | pointer target ih =>
    obtain ⟨result, htarget⟩ := ih hinput
    exact ⟨result, .pointer htarget⟩
  | vector item ih =>
    cases hheader : readVectorHeader input with
    | error e rest => exact ⟨_, .noVector hheader⟩
    | ok length mid =>
      have hmid := length_le_of_consumes consumes_readVectorHeader hheader
      obtain ⟨result, hitems⟩ :=
        exists_ends_items (fun _ => ih) length (show mid.length ≤ n by omega)
      exact ⟨_, .vector hheader hitems⟩
  | plain name =>
    cases hname : TargetType.isPrimitive name with
    | true => exact ⟨_, .primitive hname⟩
    | false =>
      cases hid : readWord input with
      | error e rest => exact ⟨_, .noId hname hid⟩
      | ok id mid =>
        cases htype : m.type? name with
        | none => exact ⟨_, .noType hname hid htype⟩
        | some t =>
          cases hconstructor : t.constructor? id with
          | none => exact ⟨_, .noConstructor hname hid htype hconstructor⟩
          | some c =>
            have hmid := length_le_of_consumes consumes_readWord hid
            obtain ⟨result, hfields⟩ := exists_ends_fields
              (hshorter mid.length (by omega)) [] c.fields (Nat.le_refl _)
            exact ⟨_, .object hname hid htype hconstructor hfields⟩

/-- Values come to an end on inputs of any length. -/
theorem endsUpTo (m : Model) (n : Nat) : EndsUpTo m n := by
  induction n using Nat.strongRecOn with
  | ind n ih => exact fun type input hinput => exists_ends_value ih type hinput

/-- Reading a value ends on every input, with the result that is computed and no other. -/
theorem ends_value_iff {type : TargetType} {result : ReadResult Value} :
    Ends m (.value type) input result ↔ m.read type input = result := by
  have heq : ∀ {result}, Ends m (.value type) input result → m.read type input = result := by
    intro result h
    rw [Model.read_eq_readValue (Nat.le_succ _)]
    exact h.reader_eq (Nat.lt_succ_self _)
  refine ⟨heq, ?_⟩
  rintro rfl
  obtain ⟨result, h⟩ := endsUpTo m input.length type input (Nat.le_refl _)
  rwa [heq h]

end Wire

end TypeLang
