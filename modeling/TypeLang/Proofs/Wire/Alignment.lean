import TypeLang.Proofs.Wire.Termination

/-!
# Alignment

Whatever is read or written takes a positive multiple of four bytes. A vector pays eight bytes for
its header and at least four for each item, so the length that a header claims is no larger than
the input can pay for.
-/
namespace TypeLang

/-- A vector with these items is the value, or stands somewhere in it. -/
inductive Value.HasVector (items : List Value) : Value → Prop
  | here : HasVector items (.vector items)
  | item {v : Value} {values : List Value} (hv : v ∈ values) (h : HasVector items v) :
      HasVector items (.vector values)
  | field {v : Value} {name : String} {id : UInt32} {fields : List (String × Option Value)}
      (hv : (name, some v) ∈ fields) (h : HasVector items v) : HasVector items (.object id fields)

/-- So many bytes pay for every vector of a value: eight for its header and four for each item. -/
def Value.PaidBy (v : Value) (count : Nat) : Prop :=
  ∀ items, Value.HasVector items v → 8 + 4 * items.length ≤ count

/-- What a value may take: a positive multiple of four bytes that pays for its vectors. -/
structure Value.Takes (v : Value) (count : Nat) : Prop where
  aligned : 4 ∣ count
  pos : 0 < count
  paid : v.PaidBy count

theorem Value.PaidBy.mono {v : Value} {count more : Nat} (h : v.PaidBy count)
    (hmore : count ≤ more) : v.PaidBy more :=
  fun items hitems => Nat.le_trans (h items hitems) hmore

namespace Wire

variable {α β : Type}

/-! ## Values -/

/-- A reading of a value without vectors. -/
theorem spends_of_flat {r : Reader α} {f : α → Value}
    (hr : r.Spends fun _ count => 4 ∣ count ∧ 0 < count)
    (hf : ∀ a items, ¬Value.HasVector items (f a)) :
    Reader.Spends (do return f (← r)) Value.Takes :=
  spends_map hr fun a _ hcount => ⟨hcount.1, hcount.2, fun items h => absurd h (hf a items)⟩

/-- Items that take some bytes each, and what they take in all. -/
theorem spends_readItems {item : Reader Value} (hitem : item.Spends Value.Takes) (n : Nat) :
    (readItems item n).Spends fun items count =>
      4 ∣ count ∧ 4 * items.length ≤ count ∧ ∀ v ∈ items, v.PaidBy count := by
  induction n with
  | zero => exact spends_pure ⟨by simp, by simp, by simp⟩
  | succ n ih =>
    refine spends_bind hitem fun v count hv => spends_map ih fun items more hitems => ?_
    obtain ⟨haligned, hlength, hpaid⟩ := hitems
    have hcount := Nat.le_of_dvd hv.pos hv.aligned
    refine ⟨Nat.dvd_add hv.aligned haligned, ?_, List.forall_mem_cons.mpr ⟨?_, fun u hu => ?_⟩⟩
    · rw [List.length_cons]
      omega
    · exact hv.paid.mono (Nat.le_add_right _ _)
    · exact (hpaid u hu).mono (Nat.le_add_left _ _)

/-- If objects take aligned bytes that pay for them, so do values of any type. -/
theorem spends_readValue {object : String → Reader Value}
    (hobject : ∀ name, (object name).Spends Value.Takes) (type : TargetType) :
    (readValue object type).Spends Value.Takes := by
  induction type with
  | pointer target ih => exact ih
  | vector item ih =>
    refine spends_bind spends_readVectorHeader fun length header hheader => ?_
    refine spends_map (spends_readItems ih length) fun items count hitems => ?_
    obtain ⟨haligned, hlength, hpaid⟩ := hitems
    refine ⟨by omega, by omega, fun values hvalues => ?_⟩
    cases hvalues with
    | here => omega
    | item hv h =>
      have := hpaid _ hv values h
      omega
  | plain name =>
    rw [readValue.eq_def]
    split
    · contradiction
    · contradiction
    · exact spends_of_flat (spends_mono spends_readBool fun _ _ h => by omega) nofun
    · exact spends_of_flat (spends_mono spends_readWord fun _ _ h => by omega) nofun
    · exact spends_of_flat (spends_mono spends_readLong fun _ _ h => by omega) nofun
    · exact spends_of_flat (spends_mono spends_readLong fun _ _ h => by omega) nofun
    · exact spends_of_flat spends_readString nofun
    · exact spends_of_flat spends_readPayload nofun
    · exact spends_of_flat (spends_mono (spends_readBlock 16) fun _ _ h => by omega) nofun
    · exact spends_of_flat (spends_mono (spends_readBlock 32) fun _ _ h => by omega) nofun
    · next heq =>
      cases heq
      exact hobject name

section Fields

variable {value : TargetType → Reader Value} (hvalue : ∀ type, (value type).Spends Value.Takes)
include hvalue

/-- A field takes a multiple of four bytes that pay for its value. -/
theorem spends_readField (words : List (String × UInt32)) (f : Field) :
    (readField value words f).Spends fun found count =>
      4 ∣ count ∧ ∀ v, found = some v → v.PaidBy count := by
  cases hunsent : unsent? words f with
  | some found =>
    rw [readField_of_unsent hunsent]
    refine spends_pure ⟨Nat.dvd_zero 4, fun v hv items h => ?_⟩
    -- What is not sent is absent or a truth value.
    obtain rfl : v = .bool true := by
      simp only [unsent?] at hunsent
      grind
    cases h
  | none =>
    rw [readField_of_sent hunsent]
    refine spends_map (hvalue f.type) fun v count hv => ⟨hv.aligned, fun u hu => ?_⟩
    cases hu
    exact hv.paid

/-- Fields take a multiple of four bytes that pay for every value. -/
theorem spends_readFields (words : List (String × UInt32)) (fields : List Field) :
    (readFields value words fields).Spends fun entries count =>
      4 ∣ count ∧ ∀ name v, (name, some v) ∈ entries → v.PaidBy count := by
  induction fields generalizing words with
  | nil => exact spends_pure ⟨Nat.dvd_zero 4, by simp⟩
  | cons f fields ih =>
    cases hword : f.isWord with
    | true =>
      rw [readFields_cons_of_isWord hword]
      refine spends_bind spends_readWord fun word count hcount => ?_
      refine spends_mono (ih _) fun entries more hentries => ⟨by omega, fun name v hv => ?_⟩
      exact (hentries.2 name v hv).mono (Nat.le_add_left _ _)
    | false =>
      rw [readFields_cons hword]
      refine spends_bind (spends_readField hvalue words f) fun found count hfound => ?_
      refine spends_map (ih words) fun entries more hentries => ⟨?_, fun name v hv => ?_⟩
      · exact Nat.dvd_add hfound.1 hentries.1
      · rcases List.mem_cons.mp hv with hv | hv
        · exact (hfound.2 v (Prod.mk.inj hv).2.symm).mono (Nat.le_add_right _ _)
        · exact (hentries.2 name v hv).mono (Nat.le_add_left _ _)

end Fields

theorem spends_readObject (m : Model) (depth : Nat) (name : String) :
    (readObject m depth name).Spends Value.Takes := by
  induction depth generalizing name with
  | zero => exact spends_throw _
  | succ depth ih =>
    rw [readObject]
    refine spends_bind spends_readWord fun id count hcount => ?_
    split
    · exact spends_throw _
    · split
      · exact spends_throw _
      · next c _ =>
        have hfields := spends_readFields (spends_readValue ih) [] c.fields
        refine spends_map hfields fun entries more hentries => ⟨by omega, by omega, ?_⟩
        intro items h
        cases h with
        | field hv h =>
          have := hentries.2 _ _ hv items h
          omega

/-! ## What is left -/

/-- The input behind what a reader consumed, or behind what it consumed before it failed. -/
def leftOver : ReadResult α → Bytes
  | .ok _ rest => rest
  | .error _ rest => rest

/-- A reader leaves a back of its input, whether it succeeds or fails. -/
theorem closed_leftOver : Reader.Closed fun {_} r => ∀ input, leftOver (r input) <:+ input where
  pure _ input := List.suffix_refl input
  throw _ input := List.suffix_refl input
  bind {_ _ r _ f _} hr hf input := by
    change leftOver (EStateM.bind r f input) <:+ input
    have hfirst := hr input
    rw [EStateM.bind]
    cases hread : r input with
    | error e mid => rwa [hread] at hfirst
    | ok a mid =>
      rw [hread] at hfirst
      exact (hf a mid).trans hfirst
  block n input := by
    simp only [readBlock]
    split
    · exact List.drop_suffix n input
    · exact List.suffix_refl input

/-! ## Writing -/

variable {m : Model}

/-- What is read back as the whole of some bytes tells how many these are. -/
theorem of_takes_of_spends {r : Reader α} {p : α → Nat → Prop} {bytes : Bytes} {a : α}
    (hr : r.Spends p) (h : r.Takes bytes a) : p a bytes.length := by
  obtain ⟨taken, hbytes, htaken⟩ := hr _ a [] (h [])
  rwa [List.append_left_injective [] hbytes]

theorem dvd_length_flatten {n : Nat} {chunks : List Bytes}
    (h : ∀ chunk ∈ chunks, n ∣ chunk.length) :
    n ∣ chunks.flatten.length := by
  induction chunks with
  | nil => exact Nat.dvd_zero n
  | cons chunk chunks ih =>
    obtain ⟨hfirst, hrest⟩ := List.forall_mem_cons.mp h
    rw [List.flatten_cons, List.length_append]
    exact Nat.dvd_add hfirst (ih hrest)

/-- Flags words and absent fields are aligned, so fields are when what is supplied for them is. -/
theorem dvd_length_encodeFields {o : Object} {fields : List Field} {chunks : List Bytes}
    (hvalue : ∀ f ∈ fields, ∀ v, o.field? f.name = some v → ∀ bytes,
      encodeValue m v f.type = .ok bytes → 4 ∣ bytes.length)
    (h : fields.mapM ((supply m o.fields).encodeField fields) = .ok chunks) :
    4 ∣ chunks.flatten.length := by
  refine dvd_length_flatten fun chunk hchunk => ?_
  obtain ⟨f, hf, hchunk⟩ := exists_of_mem_mapM h hchunk
  simp only [Supplied.encodeField, find?_supply] at hchunk
  split at hchunk
  · cases hchunk
    simp [wordBytes]
  · split at hchunk
    · cases hchunk
      exact Nat.dvd_zero 4
    · cases hfield : o.field? f.name with
      | none => simp [hfield] at hchunk
      | some v =>
        simp only [hfield, Option.map_some] at hchunk
        exact hvalue f hf v hfield chunk hchunk

/-- What is written is as long as what is read of a primitive type, and is put together from such
parts otherwise. -/
theorem dvd_length_encodeValue {v : Value} {type : TargetType} {bytes : Bytes}
    (h : encodeValue m v type = .ok bytes) : 4 ∣ bytes.length := by
  induction v, type using Model.received.induct (m := m) generalizing bytes with
  | case1 type item items hbase ih =>
    obtain ⟨chunks, rfl, rfl, hchunks⟩ := encodeValue_vector_eq_ok hbase h
    have hitems : 4 ∣ (chunks.map (·.2)).flatten.length :=
      dvd_length_flatten (List.forall_mem_map.mpr fun chunk hchunk =>
        ih chunk.1 (List.mem_map_of_mem hchunk) (hchunks chunk hchunk))
    simp only [vectorHeader, wordBytes, List.length_append, length_littleEndian]
    omega
  | case2 type name id fields hbase hnone =>
    obtain ⟨c, -, hc, -⟩ := (encodeValue_object_eq_ok_iff hbase).mp h
    rw [hnone] at hc
    cases hc
  | case3 type name id fields hbase c hc ih =>
    obtain ⟨b, chunks, hb, hchunks, rfl⟩ := (encodeValue_object_eq_ok_iff hbase).mp h
    obtain rfl : c = b := Option.some.inj (hc.symm.trans hb)
    have hfields := dvd_length_encodeFields (o := ⟨id, fields⟩)
      (fun f hf v hv bytes => ih f v hv) hchunks
    simp only [wordBytes, List.length_append, length_littleEndian]
    omega
  | case4 type v hvector hobject =>
    exact (of_takes_of_spends
      (spends_readValue (fun _ => spends_throw .endOfInput) type.behindPointers)
      (takes_readValue_primitive hvector hobject h)).aligned

end Wire

namespace Model

open Wire

/-- Reading a value comes to an end on every input, with the one result that finitely many calls
lead to, and leaves a back of the input. What a success has consumed is a positive multiple of four
bytes, and no vector that was read has more items than these pay for. What is written, a value or a
request, is a positive multiple of four bytes too. -/
theorem read_ends_aligned (m : Model) (type : TargetType) :
    (∀ input result, Ends m (.value type) input result ↔ m.read type input = result) ∧
    (∀ input, leftOver (m.read type input) <:+ input) ∧
    (∀ input v rest, m.read type input = .ok v rest →
      ∃ taken k, input = taken ++ rest ∧ taken.length = 4 * k ∧ 1 ≤ k ∧
        ∀ items, v.HasVector items → items.length ≤ (taken.length - 8) / 4) ∧
    (∀ v bytes, m.encode type v = .ok bytes → ∃ k, 1 ≤ k ∧ bytes.length = 4 * k) ∧
    ∀ name arguments bytes, m.encodeRequest name arguments = .ok bytes →
      ∃ k, 1 ≤ k ∧ bytes.length = 4 * k := by
  refine ⟨fun _ _ => ends_value_iff, fun input => ?_, fun input v rest h => ?_,
    fun v bytes h => ?_, fun name arguments bytes h => ?_⟩
  · exact closed_leftOver.value (closed_leftOver.object m _) type input
  · obtain ⟨taken, hinput, haligned, hpos, hpaid⟩ :=
      spends_readValue (spends_readObject m _) type input v rest h
    obtain ⟨k, hk⟩ := haligned
    refine ⟨taken, k, hinput, hk, by omega, fun items hitems => ?_⟩
    have := hpaid items hitems
    omega
  · obtain ⟨k, hk⟩ := dvd_length_encodeValue h
    have hpos := List.length_pos_of_ne_nil (encodeValue_ne_nil h)
    exact ⟨k, by omega, hk⟩
  · simp only [encodeRequest, Supplied.encodeFields, bind_eq_ok, pure_eq_ok] at h
    obtain ⟨method, -, _, ⟨chunks, hchunks, rfl⟩, rfl⟩ := h
    obtain ⟨k, hk⟩ := dvd_length_encodeFields (o := ⟨method.id, arguments⟩)
      (fun _ _ _ _ _ => dvd_length_encodeValue) hchunks
    refine ⟨k + 1, by omega, ?_⟩
    rw [List.length_append, hk, wordBytes, length_littleEndian]
    omega

/-- A vector of one item is read in front of a byte that is left over, from twelve bytes that pay
for the item, and is written as twelve bytes. -/
theorem read_ends_aligned_vector :
    (default : Model).read (.vector (.plain "quint32")) (vectorHeader 1 ++ wordBytes 7 ++ [9]) =
      .ok (.vector [.int 7]) [9] ∧
    (default : Model).encode (.vector (.plain "quint32")) (.vector [.int 7]) =
      .ok (vectorHeader 1 ++ wordBytes 7) ∧
    (∃ taken k, vectorHeader 1 ++ wordBytes 7 ++ [9] = taken ++ [9] ∧ taken.length = 4 * k ∧
      1 ≤ k ∧ [Value.int 7].length ≤ (taken.length - 8) / 4) ∧
    ∃ k, 1 ≤ k ∧ (vectorHeader 1 ++ wordBytes 7).length = 4 * k := by
  have hread : (default : Model).read (.vector (.plain "quint32"))
      (vectorHeader 1 ++ wordBytes 7 ++ [9]) = .ok (.vector [.int 7]) [9] := by rfl
  have hwrite : (default : Model).encode (.vector (.plain "quint32")) (.vector [.int 7]) =
      .ok (vectorHeader 1 ++ wordBytes 7) := by rfl
  obtain ⟨-, -, hspent, hwritten, -⟩ := read_ends_aligned default (.vector (.plain "quint32"))
  obtain ⟨taken, k, hinput, hlength, hpos, hitems⟩ := hspent _ _ _ hread
  exact ⟨hread, hwrite, ⟨taken, k, hinput, hlength, hpos, hitems _ .here⟩, hwritten _ _ hwrite⟩

end Model

end TypeLang
