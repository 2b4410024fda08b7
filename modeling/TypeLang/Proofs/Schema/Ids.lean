import Mathlib.Data.List.Forall2
import TypeLang.Proofs.Schema.Dialects
import TypeLang.Proofs.Success

/-!
# Ids of listings

The string ids of a document are spelled in one radix, which is not written down: a letter, a minus
sign or the length of some id gives it away. From a document that keeps to one radix the ids are
recovered, bare numbers among them, whichever of them gave it away. Where two ids give different
radices away, the first that gives any away and the first that contradicts it are named.
-/
namespace TypeLang

open Text

/-- A list is read item by item as what is known of its items. -/
theorem exists_mapM_of_forall₂ {ε α β γ δ : Type} {f : α → Except ε β} {R : α → γ → Prop}
    {key : β → γ} {name : β → δ} {given : α → δ} {as : List α} {cs : List γ}
    (h : List.Forall₂ R as cs)
    (hf : ∀ a ∈ as, ∀ c, R a c → ∃ b, f a = .ok b ∧ key b = c ∧ name b = given a) :
    ∃ bs, as.mapM f = .ok bs ∧ bs.map key = cs ∧ bs.map name = as.map given := by
  induction h with
  | nil => exact ⟨[], rfl, rfl, rfl⟩
  | @cons a c as cs hac _ ih =>
    obtain ⟨ha, has⟩ := List.forall_mem_cons.mp hf
    obtain ⟨b, hb, rfl, hname⟩ := ha c hac
    obtain ⟨bs, hbs, rfl, hnames⟩ := ih has
    refine ⟨b :: bs, ?_, rfl, by rw [List.map_cons, List.map_cons, hname, hnames]⟩
    rw [List.mapM_cons, hb, hbs]
    rfl

namespace Listing

variable {spelling other : Spelling} {listed : ListedId} {value : String} {cs : List Char} {n : Int}
  {id : UInt32} {e : ListedEntry} {entries : List ListedEntry} {listing : Listing}

/-! ## What ids spell -/

/-- The number that up to eight hexadecimal digits spell; `0x` may stand in front. -/
def word? (cs : List Char) : Option Nat :=
  let digits := ((dropStart? ['0', 'x'] cs).or (dropStart? ['0', 'X'] cs)).getD cs
  if digits.length ≤ 8 then numeral? 16 digits else none

/-- The number that an id spells in a radix, blanks around it aside. Bare numbers are what they
are. -/
def number? (spelling : Spelling) : ListedId → Option Int
  | .number n => some n
  | .text value =>
    match spelling with
    | .hexadecimal => (word? (trim value.toList)).map fun n : Nat => (n : Int)
    | .decimal => signed? (trim value.toList)

/-- Whether a number is a word, with a sign or without. -/
def IsWord (n : Int) : Prop := -0x80000000 ≤ n ∧ n < 0x100000000

/-- An id spells a word: a number in range, of which the word is the residue. -/
def Spells (spelling : Spelling) (listed : ListedId) (id : UInt32) : Prop :=
  ∃ n, number? spelling listed = some n ∧ IsWord n ∧ (id.toNat : Int) = n % 0x100000000

instance (n : Int) : Decidable (IsWord n) := inferInstanceAs (Decidable (_ ∧ _))

instance (spelling : Spelling) (listed : ListedId) (id : UInt32) :
    Decidable (Spells spelling listed id) :=
  decidable_of_iff ((number? spelling listed).any fun n =>
    decide (IsWord n ∧ (id.toNat : Int) = n % 0x100000000)) (by simp [Spells, Option.any_eq_true])

/-- Whether an id gives a radix away, when `clean` takes off what does not count and `size` tells
how long it is. Bare numbers do not. A start `0x` and letters do for hexadecimal; without letters, a
minus sign and a size of more than eight do for decimal. -/
def TellsBy (clean : List Char → List Char) (size : List Char → Nat) (spelling : Spelling) :
    ListedId → Prop
  | .number _ => False
  | .text value =>
    let cs := clean value.toList
    match spelling with
    | .hexadecimal => ['0', 'x'] <+: cs ∨ ['0', 'X'] <+: cs ∨ cs.any Char.isAlpha
    | .decimal => cs.any Char.isAlpha = false ∧ (cs.head? = some '-' ∨ 8 < size cs)

/-- Whether an id gives a radix away. Blanks around it do not count, and its size is in bytes. -/
def Tells : Spelling → ListedId → Prop := TellsBy trim fun cs => (String.ofList cs).utf8ByteSize

instance (clean : List Char → List Char) (size : List Char → Nat) (spelling : Spelling)
    (listed : ListedId) : Decidable (TellsBy clean size spelling listed) :=
  match listed, spelling with
  | .number _, _ => isFalse not_false
  | .text _, .hexadecimal => inferInstanceAs (Decidable (_ ∨ _ ∨ _))
  | .text _, .decimal => inferInstanceAs (Decidable (_ ∧ (_ ∨ _)))

instance (spelling : Spelling) (listed : ListedId) : Decidable (Tells spelling listed) :=
  inferInstanceAs (Decidable (TellsBy _ _ spelling listed))

/-- Where ids give different radices away, the first entry that gives any away is named, and the
first that gives the other one away. -/
def NamesMixed {α : Type} (tells : Spelling → ListedId → Prop) (entries : List ListedEntry)
    (result : Except SchemaError α) : Prop :=
  (∃ e ∈ entries, tells .hexadecimal e.id) → (∃ e ∈ entries, tells .decimal e.id) →
    ∃ (spelling other : Spelling) (front : List ListedEntry) (first : ListedEntry)
      (between : List ListedEntry) (second : ListedEntry) (back : List ListedEntry),
      spelling ≠ other ∧ entries = front ++ first :: (between ++ second :: back) ∧
      (∀ e ∈ front, ∀ radix, ¬tells radix e.id) ∧ tells spelling first.id ∧
      (∀ e ∈ between, ¬tells other e.id) ∧ tells other second.id ∧
      result = .error (.mixedIds first.name second.name)

/-- The radix of some id shows in a decimal document: it is negative, or has more than eight
characters. Documents where no id shows it are taken for hexadecimal. -/
def Shows (spelling : Spelling) (entries : List ListedEntry) : Prop :=
  spelling = .decimal → ∃ e ∈ entries, ∃ value, e.id = .text value ∧
    ((trim value.toList).head? = some '-' ∨ 8 < (trim value.toList).length)

/-! ## Reading ids -/

/-- A word is written in at most eight digits, behind a prefix or not. -/
theorem exists_digits_of_word? {n : Nat} (h : word? cs = some n) :
    ∃ digits, digits.length ≤ 8 ∧ numeral? 16 digits = some n ∧
      (cs = digits ∨ cs = '0' :: 'x' :: digits ∨ cs = '0' :: 'X' :: digits) := by
  simp only [word?] at h
  split at h
  · next hshort =>
    refine ⟨_, hshort, h, ?_⟩
    cases hlower : dropStart? ['0', 'x'] cs with
    | some rest => exact .inr (.inl (append_of_dropStart? hlower).symm)
    | none =>
      cases hupper : dropStart? ['0', 'X'] cs with
      | some rest => exact .inr (.inr (append_of_dropStart? hupper).symm)
      | none => exact .inl rfl
  · cases h

theorem dropStarts_append {start : List Char} (hne : start ≠ []) (cs : List Char) :
    dropStarts start (start ++ cs) = dropStarts start cs := by
  have hlonger : cs.length < (start ++ cs).length := by
    have := List.length_pos_iff.mpr hne
    simp only [List.length_append]
    omega
  rw [dropStarts]
  split
  · next hnone => simp at hnone
  · next rest hsome =>
    obtain rfl : cs = rest := by simpa using hsome
    rw [dif_pos hlonger]

/-- In front of hexadecimal digits at most one start is dropped, in either case. -/
theorem dropStarts_of_word? {digits : List Char} {n : Nat} (hdigits : numeral? 16 digits = some n)
    (hcs : cs = digits ∨ cs = '0' :: 'x' :: digits ∨ cs = '0' :: 'X' :: digits) :
    dropStarts ['0', 'X'] (dropStarts ['0', 'x'] cs) = digits := by
  have hletters : ∀ c ∈ digits, c ≠ 'x' ∧ c ≠ 'X' := forall_mem_of_numeral? (by decide) hdigits
  have hlower : 'x' ∉ digits := fun hmem => (hletters _ hmem).1 rfl
  have hupper : 'X' ∉ digits := fun hmem => (hletters _ hmem).2 rfl
  have hdigitsLower : dropStarts ['0', 'x'] digits = digits :=
    dropStarts_of_notMem (c := 'x') (by simp) hlower
  have hdigitsUpper : dropStarts ['0', 'X'] digits = digits :=
    dropStarts_of_notMem (c := 'X') (by simp) hupper
  have hother : dropStarts ['0', 'x'] (['0', 'X'] ++ digits) = ['0', 'X'] ++ digits :=
    dropStarts_of_notMem (c := 'x') (by simp) (by simp [hlower])
  rcases hcs with rfl | rfl | rfl
  · rw [hdigitsLower, hdigitsUpper]
  · have hstart := dropStarts_append (show ['0', 'x'] ≠ [] by simp) digits
    rw [List.cons_append, List.singleton_append] at hstart
    rw [hstart, hdigitsLower, hdigitsUpper]
  · have hstart := dropStarts_append (show ['0', 'X'] ≠ [] by simp) digits
    rw [List.cons_append, List.singleton_append] at hstart hother
    rw [hother, hstart, hdigitsUpper]

/-- A decimal text is read as the word that it spells, first as a signed one and, when it is too
large for that, as an unsigned one. -/
theorem exists_readSignedWord (h : signed? cs = some n) (hn : IsWord n) :
    ∃ id : UInt32, (id.toNat : Int) = n % 0x100000000 ∧
      (readSignedWord cs = .ok id ∨
        readSignedWord cs = .error .tooLarge ∧ readWord 10 cs = .ok id) := by
  obtain ⟨digits, m, hdigits, hsign⟩ := exists_digits_of_signed? h
  have hne := (exists_digits_of_numeral? hdigits).1
  have hmarks : ∀ c ∈ digits, c ≠ '+' ∧ c ≠ '-' := forall_mem_of_numeral? (by decide) hdigits
  rcases hsign with ⟨rfl, rfl⟩ | ⟨hcs, rfl⟩
  · have hm : m ≤ 0x80000000 := by
      have := hn.1
      omega
    refine ⟨_, residue_neg_ofNat m, .inl ?_⟩
    rw [readSignedWord_minus hne, readDigits_numeral (by decide) hdigits, if_pos hm]
    rfl
  · have hm : m ≤ maxWord := by
      have := hn.2
      simp only [maxWord]
      omega
    have hread : ∀ limit,
        readUnsigned 10 limit cs = if m ≤ limit then .ok m else .error .tooLarge := by
      intro limit
      rw [← readDigits_numeral (by decide) hdigits]
      rcases hcs with rfl | rfl
      · exact readUnsigned_of_plus_notMem hne fun hplus => (hmarks _ hplus).1 rfl
      · exact readUnsigned_plus hne
    have hhead : cs.head? ≠ some '-' := by
      rcases hcs with rfl | rfl
      · exact fun hhead => (hmarks _ (List.mem_of_head? hhead)).2 rfl
      · simp
    refine ⟨_, residue_ofNat m, ?_⟩
    rw [readSignedWord_of_head? hhead, readWord, hread, hread, if_pos hm]
    split
    · exact .inl rfl
    · exact .inr ⟨rfl, rfl⟩

/-- An id is read as the word that it spells. -/
theorem readId_of_spells (h : Spells spelling listed id) : readId spelling listed = .ok id := by
  obtain ⟨n, hnumber, hword, hid⟩ := h
  cases listed with
  | number value =>
    obtain rfl : value = n := by simpa [number?] using hnumber
    rw [← eq_of_residue (residue_ofInt value) hid]
    exact if_pos hword
  | text value =>
    cases spelling with
    | hexadecimal =>
      obtain ⟨m, hm, rfl⟩ := Option.map_eq_some_iff.mp hnumber
      obtain ⟨digits, hshort, hdigits, hcs⟩ := exists_digits_of_word? hm
      have hplus : '+' ∉ digits := fun hmem =>
        forall_mem_of_numeral? (P := (· ≠ '+')) (by decide) hdigits _ hmem rfl
      have hlimit : m ≤ maxWord := by
        have := hword.2
        simp only [maxWord]
        omega
      have hread : readWord 16 digits = .ok id := by
        rw [readWord, readUnsigned_of_plus_notMem (exists_digits_of_numeral? hdigits).1 hplus,
          readDigits_numeral (by decide) hdigits, if_pos hlimit, Except.map,
          eq_of_residue (residue_ofNat m) hid]
      have hstarts : "0x".toList = ['0', 'x'] ∧ "0X".toList = ['0', 'X'] := by decide
      simp only [readId, hstarts, dropStarts_of_word? hdigits hcs, hread]
      rfl
    | decimal =>
      obtain ⟨other, hother, hread⟩ := exists_readSignedWord hnumber hword
      obtain rfl := eq_of_residue hother hid
      simp only [readId]
      rcases hread with hread | ⟨hlarge, hread⟩
      · rw [hread]
      · rw [hlarge, hread]
        rfl

/-- Up to eight hexadecimal digits spell a word, whatever they are. -/
theorem exists_spells_of_word? {n : Nat} (h : word? (trim value.toList) = some n) :
    ∃ id, Spells .hexadecimal (.text value) id := by
  obtain ⟨digits, hshort, hdigits, -⟩ := exists_digits_of_word? h
  have hn : n < 0x100000000 := by
    calc n < 16 ^ digits.length := numeral?_lt hdigits
      _ ≤ 16 ^ 8 := Nat.pow_le_pow_right (by decide) hshort
  have hnumber : number? .hexadecimal (.text value) = some (n : Int) := by
    rw [number?, h, Option.map_some]
  exact ⟨.ofNat n, n, hnumber, ⟨by omega, by omega⟩, residue_ofNat n⟩

theorem readId_of_not_isWord (h : ¬IsWord n) :
    readId spelling (.number n) = .error (.idOutOfRange n) := if_neg h

/-! ## Telling the radix -/

/-- A text tells that ids are hexadecimal when it has a letter. -/
theorem tells_hexadecimal_iff :
    Tells .hexadecimal (.text value) ↔ (trim value.toList).any Char.isAlpha := by
  refine ⟨?_, fun h => .inr (.inr h)⟩
  rintro (hstart | hstart | hletter)
  · exact List.any_eq_true.mpr ⟨'x', hstart.subset (by simp), by decide⟩
  · exact List.any_eq_true.mpr ⟨'X', hstart.subset (by simp), by decide⟩
  · exact hletter

/-- The spelling that a text shows is the one it tells. -/
theorem spellingOf?_eq_some_iff :
    Spelling.of? value = some spelling ↔ Tells spelling (.text value) := by
  have hdecimal : Tells .decimal (.text value) ↔ (trim value.toList).any Char.isAlpha = false ∧
      ((trim value.toList).head? = some '-' ∨
        8 < (String.ofList (trim value.toList)).utf8ByteSize) := Iff.rfl
  rw [Spelling.of?]
  cases spelling with
  | hexadecimal =>
    rw [tells_hexadecimal_iff]
    split
    · next hletter => exact iff_of_true rfl hletter
    · next hletter => split <;> simp [hletter]
  | decimal =>
    rw [hdecimal]
    split
    · next hletter => exact iff_of_false (by decide) fun h => by simp [hletter] at h
    · next hletter =>
      rw [and_iff_right (Bool.eq_false_iff.mpr hletter)]
      split
      · next hmark => exact iff_of_true rfl hmark
      · next hmark => exact iff_of_false (by decide) hmark

/-- The radix that an entry gives away. -/
def told? (e : ListedEntry) : Option Spelling :=
  match e.id with
  | .text value => Spelling.of? value
  | .number _ => none

theorem told?_eq_some_iff : told? e = some spelling ↔ Tells spelling e.id := by
  rw [told?]
  cases he : e.id with
  | text value => exact spellingOf?_eq_some_iff
  | number n => exact iff_of_false nofun not_false

theorem spelled_eq (entries : List ListedEntry) :
    spelled entries =
      entries.filterMap fun e => (told? e).map fun spelling => (spelling, e.name) := by
  refine List.filterMap_congr fun e _ => ?_
  rw [told?]
  cases e.id <;> rfl

/-- No letter is part of a decimal text. -/
theorem any_isAlpha_of_signed? (h : signed? cs = some n) : cs.any Char.isAlpha = false := by
  obtain ⟨digits, m, hdigits, hsign⟩ := exists_digits_of_signed? h
  have hletters : ∀ c ∈ digits, c.isAlpha = false := forall_mem_of_numeral? (by decide) hdigits
  have hdigitsAny : digits.any Char.isAlpha = false := by
    rw [List.any_eq_false]
    exact fun c hc => Bool.eq_false_iff.mp (hletters c hc)
  rcases hsign with ⟨rfl, -⟩ | ⟨rfl | rfl, -⟩
  · rw [List.any_cons, hdigitsAny]
    rfl
  · exact hdigitsAny
  · rw [List.any_cons, hdigitsAny]
    rfl

/-- A hexadecimal text without letters is short and has no sign. -/
theorem not_decimal_of_word? {n : Nat} (h : word? cs = some n)
    (hletters : cs.any Char.isAlpha = false) :
    cs.head? ≠ some '-' ∧ (String.ofList cs).utf8ByteSize ≤ 8 := by
  obtain ⟨digits, hshort, hdigits, hcs⟩ := exists_digits_of_word? h
  obtain rfl : cs = digits := by
    rcases hcs with rfl | rfl | rfl
    · rfl
    · exact absurd rfl (List.any_eq_false.mp hletters 'x' (by simp))
    · exact absurd rfl (List.any_eq_false.mp hletters 'X' (by simp))
  have hplain : ∀ c ∈ cs, c ≠ '-' ∧ c.utf8Size = 1 := forall_mem_of_numeral? (by decide) hdigits
  refine ⟨fun hhead => (hplain _ (List.mem_of_head? hhead)).1 rfl, ?_⟩
  rwa [utf8ByteSize_of_forall fun c hc => (hplain c hc).2]

/-- An id that spells a number in one radix gives no other away. -/
theorem eq_of_tells (hnumber : number? spelling listed = some n) (h : Tells other listed) :
    other = spelling := by
  cases listed with
  | number n => cases h
  | text value =>
    cases spelling with
    | hexadecimal =>
      cases other with
      | hexadecimal => rfl
      | decimal =>
        obtain ⟨m, hm, -⟩ := Option.map_eq_some_iff.mp hnumber
        obtain ⟨hminus, hshort⟩ := not_decimal_of_word? hm h.1
        exact (h.2.elim hminus (Nat.not_lt.mpr hshort)).elim
    | decimal =>
      cases other with
      | decimal => rfl
      | hexadecimal =>
        have hletter := tells_hexadecimal_iff.mp h
        rw [any_isAlpha_of_signed? hnumber] at hletter
        cases hletter

/-- A decimal id that is negative or long gives its radix away. -/
theorem tells_decimal_of_shows (hnumber : number? .decimal (.text value) = some n)
    (h : (trim value.toList).head? = some '-' ∨ 8 < (trim value.toList).length) :
    Tells .decimal (.text value) :=
  ⟨any_isAlpha_of_signed? hnumber, h.imp_right fun hlong =>
    Nat.lt_of_lt_of_le hlong (length_le_utf8ByteSize _)⟩

/-- A document that keeps to one radix is taken for one of that radix. -/
theorem spelling_of_numbers (hshows : Shows spelling entries)
    (h : ∀ e ∈ entries, ∃ n, number? spelling e.id = some n) :
    Listing.spelling entries = .ok spelling := by
  have htold : ∀ e ∈ entries, ∀ other, told? e = some other → other = spelling := by
    intro e he other hother
    obtain ⟨n, hn⟩ := h e he
    exact eq_of_tells hn (told?_eq_some_iff.mp hother)
  rw [Listing.spelling, spelled_eq]
  split
  · next hnone =>
    cases spelling with
    | hexadecimal => rfl
    | decimal =>
      obtain ⟨e, he, value, hvalue, hmark⟩ := hshows rfl
      obtain ⟨n, hn⟩ := h e he
      have htells : Tells .decimal e.id := by
        rw [hvalue] at hn ⊢
        exact tells_decimal_of_shows hn hmark
      have hsilent := List.filterMap_eq_nil_iff.mp hnone e he
      simp [told?_eq_some_iff.mpr htells] at hsilent
  · next first name rest hcons =>
    have hall : ∀ entry ∈ (first, name) :: rest, entry.1 = spelling := by
      rw [← hcons]
      intro entry hentry
      obtain ⟨e, he, hsome⟩ := List.mem_filterMap.mp hentry
      obtain ⟨other, hother, rfl⟩ := Option.map_eq_some_iff.mp hsome
      exact htold e he other hother
    obtain ⟨rfl, hrest⟩ := List.forall_mem_cons.mp hall
    have hsame : (rest.find? fun entry => entry.1 != first) = none := by
      rw [List.find?_eq_none]
      intro entry hentry
      simp [hrest entry hentry]
    simp [hsame]

/-- There are two radices. -/
theorem bne_eq_beq_of_ne (hne : spelling ≠ other) (radix : Spelling) :
    (radix != spelling) = (radix == other) := by
  cases spelling <;> cases other <;> first
    | exact absurd rfl hne
    | cases radix <;> rfl

/-- Where spellings are mixed, two entries are named that tell different ones. -/
theorem namesMixed_spelling (entries : List ListedEntry) :
    NamesMixed Tells entries (Listing.spelling entries) := by
  intro hhexadecimal hdecimal
  simp only [← told?_eq_some_iff] at *
  cases hspelled : spelled entries with
  | nil =>
    obtain ⟨e, he, htold⟩ := hdecimal
    rw [spelled_eq] at hspelled
    have hsilent := List.filterMap_eq_nil_iff.mp hspelled e he
    simp [htold] at hsilent
  | cons entry rest =>
    have hcons := hspelled
    rw [spelled_eq, List.filterMap_eq_cons_iff] at hcons
    obtain ⟨front, first, behind, rfl, hsilent, hfirst, rfl⟩ := hcons
    obtain ⟨spelling, hspelling, rfl⟩ := Option.map_eq_some_iff.mp hfirst
    have hfront : ∀ e ∈ front, told? e = none := fun e he =>
      Option.map_eq_none_iff.mp (hsilent e he)
    -- The other radix is given away as well, and only behind the first entry that gives one away.
    obtain ⟨other, hne, contradicting, hmem, hother⟩ : ∃ other, spelling ≠ other ∧
        ∃ e ∈ front ++ first :: behind, told? e = some other := by
      cases spelling
      · exact ⟨.decimal, nofun, hdecimal⟩
      · exact ⟨.hexadecimal, nofun, hhexadecimal⟩
    have hbehind : contradicting ∈ behind := by
      rcases List.mem_append.mp hmem with hin | hin
      · simp [hfront _ hin] at hother
      · rcases List.mem_cons.mp hin with rfl | hin
        · exact absurd (Option.some.inj (hspelling.symm.trans hother)) hne
        · exact hin
    obtain ⟨second, hsecond⟩ : ∃ second,
        (behind.find? fun e => told? e == some other) = some second :=
      Option.isSome_iff_exists.mp (List.find?_isSome.mpr ⟨contradicting, hbehind, by simp [hother]⟩)
    have hfound : ((behind.filterMap fun e => (told? e).map fun radix => (radix, e.name)).find?
        fun entry => entry.1 != spelling) = some (other, second.name) := by
      have hsame : (fun e => ((told? e).map fun radix => (radix, e.name)).any
          fun entry => entry.1 != spelling) = fun e => told? e == some other := by
        funext e
        cases told? e with
        | none => rfl
        | some radix => exact bne_eq_beq_of_ne hne radix
      have htold := List.find?_some hsecond
      rw [List.find?_filterMap, hsame, hsecond]
      simp [eq_of_beq htold]
    obtain ⟨htold, between, back, rfl, hbetween⟩ := List.find?_eq_some_iff_append.mp hsecond
    refine ⟨spelling, other, front, first, between, second, back, hne, rfl, ?_, hspelling, ?_,
      eq_of_beq htold, ?_⟩
    · exact fun e he => by simp [hfront e he]
    · exact fun e he => by simpa using hbetween e he
    · rw [Listing.spelling, hspelled]
      simp only [hfound]

/-- What comes after a failure is not done. -/
theorem NamesMixed.bind {α β : Type} {tells : Spelling → ListedId → Prop}
    {x : Except SchemaError α} (h : NamesMixed tells entries x) (f : α → Except SchemaError β) :
    NamesMixed tells entries (x >>= f) := by
  intro hhexadecimal hdecimal
  obtain ⟨spelling, other, front, first, between, second, back, hne, hentries, hfront, hfirst,
    hbetween, hsecond, rfl⟩ := h hhexadecimal hdecimal
  exact ⟨spelling, other, front, first, between, second, back, hne, hentries, hfront, hfirst,
    hbetween, hsecond, rfl⟩

/-! ## Entries -/

/-- An entry that is read, whatever word its id is: its name, its result type and, unless it is a
template, its parameters are. -/
structure IsSound (e : ListedEntry) : Prop where
  name : (QualifiedName.read? e.name.toList).isSome
  type : (readResult e.type).isOk
  parameters : (e.parameters.any fun p => p.type.toList.head? == some '!') ∨
    ∀ p ∈ e.parameters, (readParameter p).isOk

theorem isSound_iff : IsSound e ↔ (QualifiedName.read? e.name.toList).isSome ∧
    (readResult e.type).isOk ∧ ((e.parameters.any fun p => p.type.toList.head? == some '!') ∨
      ∀ p ∈ e.parameters, (readParameter p).isOk) :=
  ⟨fun ⟨a, b, c⟩ => ⟨a, b, c⟩, fun ⟨a, b, c⟩ => ⟨a, b, c⟩⟩

instance (e : ListedEntry) : Decidable (IsSound e) := decidable_of_iff _ isSound_iff.symm

/-- Reading a sound entry is reading its id. -/
theorem exists_reading (h : IsSound e) (category : Category) : ∃ d : UInt32 → Definition,
    (∀ id, (d id).id = id ∧ (d id).name.text = e.name) ∧
      ∀ spelling, readEntry spelling category e = (readId spelling e.id).map d := by
  obtain ⟨name, hname⟩ := Option.isSome_iff_exists.mp h.name
  obtain ⟨result, hresult⟩ := exists_of_isOk h.type
  have hnameText : name.text = e.name :=
    String.toList_inj.mp (QualifiedName.toList_text_of_read? hname)
  let ready (template : Bool) (ps : List Parameter) (id : UInt32) : Definition :=
    let d : Definition := ⟨name, id, ps, result, category, template, none⟩
    { d with source := some d.text }
  have hready : ∀ template ps id, (ready template ps id).id = id ∧
      (ready template ps id).name.text = e.name := fun _ _ _ => ⟨rfl, hnameText⟩
  by_cases htemplate : e.parameters.any fun p => p.type.toList.head? == some '!'
  · refine ⟨ready true [], hready true [], fun spelling => ?_⟩
    rw [readEntry]
    simp only [hname, hresult, htemplate]
    cases readId spelling e.id <;> rfl
  · obtain ⟨ps, hps⟩ := exists_mapM fun p hp =>
      exists_of_isOk (h.parameters.resolve_left htemplate p hp)
    refine ⟨ready false ps, hready false ps, fun spelling => ?_⟩
    rw [readEntry]
    simp only [hname, hresult, hps, Bool.eq_false_iff.mpr htemplate]
    cases readId spelling e.id <;> rfl

/-- The entries of a listing in order, constructors first. -/
def all (listing : Listing) : List ListedEntry := listing.constructors ++ listing.methods

def sorted (listing : Listing) : List (Category × ListedEntry) :=
  listing.constructors.map (Category.types, ·) ++ listing.methods.map (Category.functions, ·)

theorem map_snd_sorted (listing : Listing) : listing.sorted.map Prod.snd = listing.all := by
  simp [sorted, all, Function.comp_def]

def readSorted (spelling : Spelling) (entry : Category × ListedEntry) :
    Except SchemaError Definition :=
  (readEntry spelling entry.1 entry.2).mapError (.entry entry.2.name)

/-- One radix is settled, and then all entries are read in it. -/
theorem definitions_eq (listing : Listing) : listing.definitions =
    Listing.spelling listing.all >>= fun spelling =>
      listing.sorted.mapM (readSorted spelling) := by
  rw [definitions, all]
  congr 1
  funext spelling
  rw [sorted, List.mapM_append, List.mapM_map, List.mapM_map]
  rfl

/-- A sound entry is read with the id that is spelled. -/
theorem readSorted_of_spells {entry : Category × ListedEntry} (hsound : IsSound entry.2)
    (h : Spells spelling entry.2.id id) :
    ∃ d, readSorted spelling entry = .ok d ∧ d.id = id ∧ d.name.text = entry.2.name := by
  obtain ⟨d, hd, hread⟩ := exists_reading hsound entry.1
  refine ⟨d id, ?_, (hd id).1, (hd id).2⟩
  rw [readSorted, hread, readId_of_spells h]
  rfl

theorem readSorted_of_not_isWord {entry : Category × ListedEntry} (hsound : IsSound entry.2)
    (hid : entry.2.id = .number n) (hn : ¬IsWord n) :
    readSorted spelling entry = .error (.entry entry.2.name (.idOutOfRange n)) := by
  obtain ⟨d, -, hread⟩ := exists_reading hsound entry.1
  rw [readSorted, hread, hid, readId_of_not_isWord hn]
  rfl

/-! ## Documents -/

/-- A document that keeps to one radix: its entries are sound, and all its string ids spell words
in the radix, which shows. -/
structure IsSpelledIn (spelling : Spelling) (listing : Listing) : Prop where
  sound : ∀ e ∈ listing.all, IsSound e
  shows : Shows spelling listing.all
  texts : ∀ e ∈ listing.all, ∀ value, e.id = .text value → ∃ id, Spells spelling e.id id

/-- A listing that is spelled in one way is found to be. -/
theorem IsSpelledIn.spelling_all (h : IsSpelledIn spelling listing) :
    Listing.spelling listing.all = .ok spelling := by
  refine spelling_of_numbers h.shows fun e he => ?_
  cases hid : e.id with
  | number n => exact ⟨n, rfl⟩
  | text value =>
    obtain ⟨id, n, hn, -⟩ := h.texts e he value hid
    exact ⟨n, hid ▸ hn⟩

theorem IsSpelledIn.definitions_eq_mapM (h : IsSpelledIn spelling listing) :
    listing.definitions = listing.sorted.mapM (readSorted spelling) := by
  rw [definitions_eq, h.spelling_all]
  rfl

theorem IsSpelledIn.sound_sorted (h : IsSpelledIn spelling listing)
    {entry : Category × ListedEntry} (hentry : entry ∈ listing.sorted) : IsSound entry.2 := by
  refine h.sound _ ?_
  rw [← map_snd_sorted]
  exact List.mem_map_of_mem hentry

/-- Ids that are all words are recovered, in order. -/
theorem IsSpelledIn.exists_definitions (h : IsSpelledIn spelling listing) {ids : List UInt32}
    (hids : List.Forall₂ (fun e id => Spells spelling e.id id) listing.all ids) :
    ∃ ds, listing.definitions = .ok ds ∧ ds.map (·.id) = ids ∧
      ds.map (·.name.text) = listing.all.map (·.name) := by
  rw [← map_snd_sorted, List.forall₂_map_left_iff] at hids
  rw [h.definitions_eq_mapM, ← map_snd_sorted, List.map_map]
  exact exists_mapM_of_forall₂ hids fun entry hentry id hid =>
    readSorted_of_spells (h.sound_sorted hentry) hid

/-- The first bare number that is no word is reported. -/
theorem IsSpelledIn.definitions_of_not_isWord (h : IsSpelledIn spelling listing)
    {front back : List ListedEntry} (hall : listing.all = front ++ e :: back)
    (hfront : ∀ d ∈ front, ∃ id, Spells spelling d.id id) (hid : e.id = .number n)
    (hn : ¬IsWord n) :
    listing.definitions = .error (.entry e.name (.idOutOfRange n)) := by
  rw [← map_snd_sorted, List.map_eq_append_iff] at hall
  obtain ⟨before, behind, hsorted, rfl, hbehind⟩ := hall
  obtain ⟨entry, after, rfl, rfl, rfl⟩ := List.map_eq_cons_iff.mp hbehind
  have hsound : ∀ entry ∈ listing.sorted, IsSound entry.2 := fun _ => h.sound_sorted
  rw [hsorted, List.forall_mem_append, List.forall_mem_cons] at hsound
  rw [h.definitions_eq_mapM, hsorted]
  refine mapM_of_error (fun other hother => ?_) (readSorted_of_not_isWord hsound.2.1 hid hn)
  obtain ⟨id, hspells⟩ := hfront _ (List.mem_map_of_mem hother)
  exact (readSorted_of_spells (hsound.1 other hother) hspells).imp fun d hd => hd.1

theorem readListing_eq {bytes : List UInt8}
    (hbytes : (Json.Node.read? bytes).bind Listing.ofNode? = some listing) :
    readListing bytes = listing.definitions := by
  rw [readListing, hbytes]

/-- Ids are recovered from the document, whatever radix it keeps to. When all ids are words they are
read as these words, constructors first; a bare number that is no word is reported in either kind
of document. Where ids give different radices away, the two entries that show it are named. -/
theorem readListing_ids {bytes : List UInt8}
    (hbytes : (Json.Node.read? bytes).bind Listing.ofNode? = some listing) :
    (∀ spelling, IsSpelledIn spelling listing →
      (∀ ids : List UInt32, List.Forall₂ (fun e id => Spells spelling e.id id) listing.all ids →
        ∃ ds, readListing bytes = .ok ds ∧ ds.map (·.id) = ids ∧
          ds.map (·.name.text) = listing.all.map (·.name)) ∧
      ∀ (front : List ListedEntry) (e : ListedEntry) (back : List ListedEntry) (n : Int),
        listing.all = front ++ e :: back →
        (∀ d ∈ front, ∃ id, Spells spelling d.id id) → e.id = .number n → ¬IsWord n →
          readListing bytes = .error (.entry e.name (.idOutOfRange n))) ∧
    NamesMixed Tells listing.all (readListing bytes) := by
  rw [readListing_eq hbytes]
  refine ⟨fun spelling h => ⟨fun ids hids => h.exists_definitions hids,
    fun front e back n hall hfront hid hn => h.definitions_of_not_isWord hall hfront hid hn⟩, ?_⟩
  rw [definitions_eq]
  exact (namesMixed_spelling listing.all).bind _

/-! ## Examples -/

/-- An id as a document has it. -/
def literal : ListedId → List String
  | .text value => ["\"", value, "\""]
  | .number n => [toString n]

/-- An entry without parameters as a document has it. -/
def record (nameField : String) (e : ListedEntry) : List String :=
  ["\x7b\"id\":"] ++ literal e.id ++
    [",\"", nameField, "\":\"", e.name, "\",\"type\":\"", e.type, "\"\x7d"]

/-- The document of a listing without parameters. -/
def document (listing : Listing) : List UInt8 :=
  (["\x7b\"constructors\":["] ++ [","].intercalate (listing.constructors.map (record "predicate"))
    ++ ["],\"methods\":["] ++ [","].intercalate (listing.methods.map (record "method"))
    ++ ["]\x7d"]).flatMap Utf8.encode

/-- A listing of constructors with these ids, named in alphabetical order, and a method. -/
def listingOfIds (x y z : ListedId) : Listing :=
  ⟨[⟨x, "x", [], "A"⟩, ⟨y, "y", [], "A"⟩], [⟨z, "z", [], "A"⟩]⟩

/-- A decimal document: the sign of the first id gives it away. -/
def decimalListing : Listing :=
  listingOfIds (.text "-1132882121") (.text "12") (.number 481674261)

/-- A hexadecimal document with a number that is no word. -/
def oversizedListing : Listing :=
  listingOfIds (.text "0xaB") (.number 0x100000000) (.text "12")

/-- A document in two radices; the first id gives none away. -/
def mixedListing : Listing :=
  listingOfIds (.text "12") (.text "-5") (.text "ab")

theorem isSpelledIn_decimalListing : IsSpelledIn .decimal decimalListing := by
  refine ⟨by decide +kernel, fun _ => ⟨_, List.mem_cons_self, _, rfl, .inl (by decide)⟩, ?_⟩
  simp only [decimalListing, listingOfIds, all, List.cons_append, List.nil_append,
    List.forall_mem_cons]
  exact ⟨fun _ _ => ⟨0xbc799737, by decide +kernel⟩, fun _ _ => ⟨12, by decide +kernel⟩, nofun,
    nofun⟩

theorem isSpelledIn_oversizedListing : IsSpelledIn .hexadecimal oversizedListing := by
  refine ⟨by decide +kernel, nofun, ?_⟩
  simp only [oversizedListing, listingOfIds, all, List.cons_append, List.nil_append,
    List.forall_mem_cons]
  exact ⟨fun _ _ => exists_spells_of_word? (n := 0xab) (by decide +kernel), nofun,
    fun _ _ => exists_spells_of_word? (n := 0x12) (by decide +kernel), nofun⟩

/-- A decimal listing, one with a number that is out of range, and a mixed one. -/
theorem readListing_ids_examples :
    (∃ ds, readListing (document decimalListing) = .ok ds ∧
      ds.map (·.id) = [0xbc799737, 12, 0x1cb5c415]) ∧
    readListing (document oversizedListing) = .error (.entry "y" (.idOutOfRange 0x100000000)) ∧
    ∃ first second, readListing (document mixedListing) = .error (.mixedIds first second) := by
  have hread : ∀ listing ∈ [decimalListing, oversizedListing, mixedListing],
      (Json.Node.read? (document listing)).bind ofNode? = some listing := by decide +kernel
  simp only [List.forall_mem_cons] at hread
  obtain ⟨hdecimal, hoversized, hmixed, -⟩ := hread
  refine ⟨?_, ?_, ?_⟩
  · have hids : List.Forall₂ (fun e id => Spells .decimal e.id id) decimalListing.all
        [0xbc799737, 12, 0x1cb5c415] :=
      .cons (by decide +kernel) (.cons (by decide +kernel) (.cons (by decide +kernel) .nil))
    obtain ⟨ds, hds, hdsIds, -⟩ :=
      ((readListing_ids hdecimal).1 _ isSpelledIn_decimalListing).1 _ hids
    exact ⟨ds, hds, hdsIds⟩
  · refine ((readListing_ids hoversized).1 _ isSpelledIn_oversizedListing).2 [_] _ [_] _ rfl ?_ rfl
      (by decide)
    exact List.forall_mem_singleton.mpr ⟨0xab, by decide +kernel⟩
  · obtain ⟨_, _, _, first, _, second, _, _, _, _, _, _, _, herror⟩ :=
      (readListing_ids hmixed).2 (by decide +kernel) (by decide +kernel)
    exact ⟨_, _, herror⟩

/-- Ids with blanks at the end; the blanks do not count. -/
def paddedListing : Listing :=
  listingOfIds (.text "12345    ") (.text "ab") (.number 7)

/-- Ids with wide digits, of three bytes each. -/
def wideListing : Listing :=
  listingOfIds (.text "１２３") (.text "ab") (.text "-5")

/-- With the blanks around them, or by their lengths in characters, ids would give other radices
away than they do. -/
theorem not_namesMixed_by_characters :
    ((∀ e ∈ paddedListing.all, IsSound e) ∧
      (Json.Node.read? (document paddedListing)).bind ofNode? = some paddedListing ∧
      ¬NamesMixed (TellsBy (fun cs => cs) List.length) paddedListing.all
        (readListing (document paddedListing))) ∧
    (∀ e ∈ wideListing.all, IsSound e) ∧
      (Json.Node.read? (document wideListing)).bind ofNode? = some wideListing ∧
      ¬NamesMixed (TellsBy trim List.length) wideListing.all
        (readListing (document wideListing)) := by
  have hpadded : (Json.Node.read? (document paddedListing)).bind ofNode? = some paddedListing := by
    decide +kernel
  have hwide : (Json.Node.read? (document wideListing)).bind ofNode? = some wideListing := by
    decide +kernel
  refine ⟨⟨by decide +kernel, hpadded, fun h => ?_⟩, by decide +kernel, hwide, fun h => ?_⟩
  · have hread : paddedListing.definitions.isOk := by decide +kernel
    obtain ⟨_, _, _, first, _, second, _, _, _, _, _, _, _, herror⟩ :=
      h (by decide +kernel) (by decide +kernel)
    rw [← readListing_eq hpadded, herror] at hread
    cases hread
  · have hread : wideListing.definitions = .error (.mixedIds "x" "y") := by decide +kernel
    obtain ⟨radix, _, _, first, _, second, _, _, hall, _, hfirst, _, _, herror⟩ :=
      h (by decide +kernel) (by decide +kernel)
    rw [readListing_eq hwide, hread] at herror
    have hname : first.name = "x" := (SchemaError.mixedIds.inj (Except.error.inj herror)).1.symm
    have hsilent : ∀ e ∈ wideListing.all, e.name = "x" →
        ¬TellsBy trim List.length .hexadecimal e.id ∧
          ¬TellsBy trim List.length .decimal e.id := by decide +kernel
    have hmem : first ∈ wideListing.all := by simp [hall]
    cases radix
    · exact (hsilent first hmem hname).1 hfirst
    · exact (hsilent first hmem hname).2 hfirst

end Listing

end TypeLang
