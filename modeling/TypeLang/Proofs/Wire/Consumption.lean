import TypeLang.Proofs.Success
import TypeLang.Proofs.Wire.Congruence
import TypeLang.Proofs.Wire.Reading

/-!
# What is consumed and what is written

A reader that succeeds has consumed a front of its input. How long that is, for what was read, is
told by composition: each primitive spends a number of bytes that is known, and every value takes
at least one byte, on the way in and on the way out. `traceFields` is the reader of fields with a
record of what each field took; leaving the record away gives the reader back.
-/
namespace TypeLang

/-- On success the reader has consumed a front of its input, and `p` holds of what it returns and of
the length of that front. -/
def Reader.Spends {α : Type} (r : Reader α) (p : α → Nat → Prop) : Prop :=
  ∀ input a rest, r input = .ok a rest → ∃ taken, input = taken ++ rest ∧ p a taken.length

/-- On success the reader has consumed a front of its input, of at least `n` bytes. -/
def Reader.Consumes {α : Type} (r : Reader α) (n : Nat) : Prop :=
  ∀ input a rest, r input = .ok a rest → ∃ taken, input = taken ++ rest ∧ n ≤ taken.length

namespace Wire

variable {α β : Type}

/-! ## Composition -/

/-- A sequence of readers succeeds exactly when both do, the second on what the first leaves. -/
theorem bind_eq_ok_iff {r : Reader α} {f : α → Reader β} {input rest : Bytes} {b : β} :
    (r >>= f) input = .ok b rest ↔ ∃ a mid, r input = .ok a mid ∧ f a mid = .ok b rest := by
  change EStateM.bind r f input = _ ↔ _
  rw [EStateM.bind]
  cases r input with
  | ok a mid => simp only [EStateM.Result.ok.injEq]; exact ⟨fun h => ⟨a, mid, ⟨rfl, rfl⟩, h⟩, by
      rintro ⟨_, _, ⟨rfl, rfl⟩, h⟩
      exact h⟩
  | error e mid => simp

theorem discard_eq_ok_iff {r : Reader α} {input rest : Bytes} {u : Unit} :
    discard r input = .ok u rest ↔ ∃ a, r input = .ok a rest := by
  change EStateM.map (fun _ => ()) r input = _ ↔ _
  rw [EStateM.map]
  cases r input <;> simp

theorem spends_pure {p : α → Nat → Prop} {a : α} (h : p a 0) : Reader.Spends (pure a) p := by
  intro input b rest hread
  cases hread
  exact ⟨[], rfl, h⟩

theorem spends_throw {p : α → Nat → Prop} (e : WireError) :
    Reader.Spends (throw e : Reader α) p := by
  intro input b rest hread
  cases hread

/-- What two readers take one after the other adds up. -/
theorem spends_bind {r : Reader α} {f : α → Reader β} {p : α → Nat → Prop} {q : β → Nat → Prop}
    (hr : r.Spends p) (hf : ∀ a count, p a count → (f a).Spends fun b more => q b (count + more)) :
    (r >>= f).Spends q := by
  intro input b rest h
  obtain ⟨a, mid, hfirst, hsecond⟩ := bind_eq_ok_iff.mp h
  obtain ⟨front, rfl, hfront⟩ := hr input a mid hfirst
  obtain ⟨back, rfl, hback⟩ := hf a front.length hfront mid b rest hsecond
  exact ⟨front ++ back, by rw [List.append_assoc], by rwa [List.length_append]⟩

theorem spends_map {r : Reader α} {f : α → β} {p : α → Nat → Prop} {q : β → Nat → Prop}
    (hr : r.Spends p) (hf : ∀ a count, p a count → q (f a) count) :
    Reader.Spends (do return f (← r)) q :=
  spends_bind hr fun a count ha => spends_pure (hf a count ha)

theorem spends_mono {r : Reader α} {p q : α → Nat → Prop} (hr : r.Spends p)
    (h : ∀ a count, p a count → q a count) : r.Spends q := by
  intro input a rest hread
  obtain ⟨taken, hinput, htaken⟩ := hr input a rest hread
  exact ⟨taken, hinput, h a _ htaken⟩

theorem spends_discard {r : Reader α} {count : Nat} (hr : r.Spends fun _ spent => spent = count) :
    Reader.Spends (discard r) fun _ spent => spent = count := by
  intro input b rest h
  obtain ⟨a, hread⟩ := discard_eq_ok_iff.mp h
  exact hr input a rest hread

theorem consumes_of_spends {r : Reader α} {p : α → Nat → Prop} {n : Nat} (hr : r.Spends p)
    (h : ∀ a count, p a count → n ≤ count) : r.Consumes n := spends_mono hr h

theorem consumes_pure (a : α) : Reader.Consumes (pure a) 0 := spends_pure (Nat.le_refl 0)

theorem consumes_throw (e : WireError) : Reader.Consumes (throw e : Reader α) 0 := spends_throw e

theorem consumes_of_le {r : Reader α} {n k : Nat} (hr : r.Consumes n) (hk : k ≤ n) :
    r.Consumes k := consumes_of_spends hr fun _ _ h => Nat.le_trans hk h

theorem consumes_zero {r : Reader α} {n : Nat} (hr : r.Consumes n) : r.Consumes 0 :=
  consumes_of_le hr (Nat.zero_le n)

/-- What a reader consumes it still consumes when it goes on. -/
theorem consumes_bind {r : Reader α} {f : α → Reader β} {n : Nat} (hr : r.Consumes n)
    (hf : ∀ a, (f a).Consumes 0) : (r >>= f).Consumes n :=
  spends_bind hr fun a _ h => spends_mono (hf a) fun _ _ _ => Nat.le_add_right_of_le h

theorem consumes_map {r : Reader α} {n : Nat} (hr : r.Consumes n) (f : α → β) :
    Reader.Consumes (do return f (← r)) n :=
  consumes_bind hr fun _ => consumes_pure _

/-! ## Primitives -/

theorem spends_readBlock (n : Nat) : (readBlock n).Spends fun _ count => count = n := by
  intro input block rest h
  simp only [readBlock] at h
  split at h
  · next hlength =>
    cases h
    exact ⟨input.take n, (List.take_append_drop n input).symm, hlength⟩
  · cases h

theorem spends_readBytes (n : Nat) : (readBytes n).Spends fun _ count => count = n :=
  spends_map (spends_readBlock n) fun _ _ h => h

theorem spends_readNumber (n : Nat) : (readNumber n).Spends fun _ count => count = n :=
  spends_map (spends_readBytes n) fun _ _ h => h

theorem spends_readWord : readWord.Spends fun _ count => count = 4 :=
  spends_map (spends_readNumber 4) fun _ _ h => h

theorem spends_readLong : readLong.Spends fun _ count => count = 8 :=
  spends_map (spends_readNumber 8) fun _ _ h => h

theorem spends_readBool : readBool.Spends fun _ count => count = 4 := by
  refine spends_bind spends_readWord fun id count hcount => ?_
  split
  · exact spends_pure hcount
  · split
    · exact spends_pure hcount
    · exact spends_throw _

theorem spends_readVectorHeader : readVectorHeader.Spends fun _ count => count = 8 := by
  refine spends_bind spends_readWord fun id count hcount => ?_
  split
  · exact spends_mono (spends_readNumber 4) fun _ more hmore => by omega
  · exact spends_throw _

/-- The length of a payload comes with the number of bytes that it took. -/
theorem spends_readPayloadHeader :
    readPayloadHeader.Spends fun header count => count = header.2 ∧ 0 < count := by
  refine spends_bind (spends_readNumber 1) fun first count hcount => ?_
  split
  · exact spends_map (spends_readNumber 3) fun _ more hmore => by omega
  · exact spends_pure (by omega)

theorem dvd_add_padding (n : Nat) : 4 ∣ n + padding n := by
  rw [padding]
  omega

/-- A payload takes a positive multiple of four bytes. -/
theorem spends_readPayload : readPayload.Spends fun _ count => 4 ∣ count ∧ 0 < count := by
  refine spends_bind spends_readPayloadHeader fun (length, header) first hfirst => ?_
  refine spends_bind (spends_readBytes length) fun data second hsecond => ?_
  have hdiscard := spends_discard (spends_readBytes (padding (header + length)))
  refine spends_bind hdiscard fun _ third hthird => spends_pure ?_
  have haligned := dvd_add_padding (header + length)
  simp only at hfirst
  constructor
  · rwa [hfirst.1, hsecond, hthird, Nat.add_zero, ← Nat.add_assoc]
  · omega

theorem spends_readString : readString.Spends fun _ count => 4 ∣ count ∧ 0 < count := by
  refine spends_bind spends_readPayload fun data count hcount => ?_
  split
  · exact spends_pure hcount
  · exact spends_throw _

theorem consumes_readBlock (n : Nat) : (readBlock n).Consumes n :=
  consumes_of_spends (spends_readBlock n) fun _ _ h => Nat.le_of_eq h.symm

theorem consumes_readWord : readWord.Consumes 4 :=
  consumes_of_spends spends_readWord fun _ _ h => Nat.le_of_eq h.symm

theorem consumes_readVectorHeader : readVectorHeader.Consumes 4 :=
  consumes_of_spends spends_readVectorHeader fun _ _ h => by omega

/-! ## Values -/

/-- No reader gives bytes back. -/
theorem closed_consumes : Reader.Closed fun {_} r => r.Consumes 0 where
  pure := consumes_pure
  throw := consumes_throw
  bind := consumes_bind
  block n := consumes_zero (consumes_readBlock n)

/-- Every value takes at least one byte, if every object does. -/
theorem consumes_readValue {object : String → Reader Value}
    (hobject : ∀ name, (object name).Consumes 1) (type : TargetType) :
    (readValue object type).Consumes 1 := by
  induction type with
  | pointer target ih => exact ih
  | vector item ih =>
    refine consumes_of_le (consumes_bind consumes_readVectorHeader fun length => ?_) (by decide)
    exact consumes_map (closed_consumes.items (consumes_zero ih) length) _
  | plain name =>
    rw [readValue.eq_def]
    split
    · contradiction
    · contradiction
    · exact consumes_map (consumes_of_spends spends_readBool fun _ _ h => by omega) _
    · exact consumes_of_le (consumes_map consumes_readWord _) (by decide)
    · exact consumes_map (consumes_of_spends spends_readLong fun _ _ h => by omega) _
    · exact consumes_map (consumes_of_spends spends_readLong fun _ _ h => by omega) _
    · exact consumes_map (consumes_of_spends spends_readString fun _ _ h => h.2) _
    · exact consumes_map (consumes_of_spends spends_readPayload fun _ _ h => h.2) _
    · exact consumes_of_le (consumes_map (consumes_readBlock 16) _) (by decide)
    · exact consumes_of_le (consumes_map (consumes_readBlock 32) _) (by decide)
    · next heq =>
      cases heq
      exact hobject name

/-- Every object takes at least one byte. -/
theorem consumes_readObject (m : Model) (depth : Nat) (name : String) :
    (readObject m depth name).Consumes 1 := by
  induction depth generalizing name with
  | zero =>
    intro input a rest h
    cases h
  | succ depth ih =>
    rw [readObject]
    refine consumes_of_le (consumes_bind consumes_readWord fun id => ?_) (by decide)
    have hfields := closed_consumes.fields fun type => consumes_zero (consumes_readValue ih type)
    split
    · exact consumes_throw _
    · split
      · exact consumes_throw _
      · exact consumes_map (hfields [] _) _

/-- Nothing is written as no bytes at all. -/
theorem encodeValue_ne_nil {m : Model} {v : Value} {type : TargetType} {bytes : Bytes}
    (h : encodeValue m v type = .ok bytes) : bytes ≠ [] := by
  have hword : ∀ n, wordBytes n ≠ [] := fun n => by simp [wordBytes, littleEndian]
  have hlong : ∀ n, longBytes n ≠ [] := fun n => by simp [longBytes, littleEndian]
  have hblock : ∀ {n} (block : Block (n + 1)), block.bytes ≠ [] := fun block hnil => by
    have := block.length_bytes
    simp [hnil] at this
  have hpayload : ∀ {data}, payloadBytes data = .ok bytes → bytes ≠ [] := by
    intro data hdata
    obtain ⟨-, rfl⟩ := payloadBytes_eq_ok_iff.mp hdata
    simp only [payloadLayout, payloadHeader]
    split <;> simp
  rw [encodeValue.eq_def] at h
  simp only at h
  split at h
  · simp only [bind_eq_ok, pure_eq_ok] at h
    obtain ⟨body, -, rfl⟩ := h
    simp [vectorHeader, hword]
  · cases h
    exact hword _
  · cases h
    exact hword _
  · cases h
    exact hlong _
  · cases h
    exact hlong _
  · exact hpayload h
  · exact hpayload h
  · cases h
    exact hblock _
  · cases h
    exact hblock _
  · split at h
    · cases h
    · split at h
      · cases h
      · simp only [bind_eq_ok, pure_eq_ok] at h
        obtain ⟨body, -, rfl⟩ := h
        simp [hword]
  · cases h

/-! ## What each field takes -/

/-- A reader together with what it consumes. -/
def measured (r : Reader α) : Reader (α × Bytes) := fun input =>
  match r input with
  | .ok a rest => .ok (a, input.take (input.length - rest.length)) rest
  | .error e rest => .error e rest

/-- The reader of fields, with the bytes that each field took. -/
def traceFields (value : TargetType → Reader Value) (words : List (String × UInt32)) :
    List Field → Reader (List (String × Option Value) × List (Field × Bytes))
  | [] => return ([], [])
  | f :: fields =>
    if f.isWord then do
      let (word, taken) ← measured readWord
      let (entries, layout) ← traceFields value ((f.name, word) :: words) fields
      return (entries, (f, taken) :: layout)
    else do
      let (first, taken) ← measured (readField value words f)
      let (entries, layout) ← traceFields value words fields
      return ((f.name, first) :: entries, (f, taken) :: layout)

theorem bind_measured (r : Reader α) (f : α → Reader β) :
    r >>= f = measured r >>= fun p => f p.1 := by
  funext input
  change EStateM.bind r f input = EStateM.bind (measured r) (fun p => f p.1) input
  rw [EStateM.bind, EStateM.bind, measured]
  cases r input <;> rfl

/-- Without the record the traced reader is the reader. -/
theorem map_fst_traceFields (value : TargetType → Reader Value) (words : List (String × UInt32))
    (fields : List Field) :
    (·.1) <$> traceFields value words fields = readFields value words fields := by
  induction fields generalizing words with
  | nil => rfl
  | cons f fields ih =>
    rw [traceFields, readFields]
    split
    · rw [bind_measured readWord]
      simp [← ih]
    · rw [bind_measured (readField value words f)]
      simp [← ih]

end Wire

end TypeLang
