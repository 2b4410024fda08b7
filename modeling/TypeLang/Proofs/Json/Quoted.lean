import TypeLang.Json.Token
import TypeLang.Proofs.Text.Numerals

/-!
# Quoted texts

A text that is written in quotes is scanned as one token, and read from that token again. Escapes
of one letter give the byte of their character back, so that only the other control characters are
scanned as code units.
-/
namespace TypeLang.Json

open Text

namespace Quoted

variable {c : Char} {s : String}

/-- What a character is scanned as when it is written in quotes. -/
def units (c : Char) : Quoted :=
  if (letters.lookup c).isNone ∧ c.toNat < 0x20 then [.code c.toNat]
  else (String.utf8EncodeChar c).map .byte

/-- What a text is scanned as when it is written in quotes. -/
def ofText (s : String) : Quoted := s.toList.flatMap units

theorem bytes?_bytes (bytes : List UInt8) (rest : Quoted) :
    bytes? (bytes.map .byte ++ rest) = (bytes? rest).map (bytes ++ ·) := by
  induction bytes with
  | nil => simp
  | cons b bytes ih =>
    rw [List.map_cons, List.cons_append, bytes?, ih, Option.map_map]
    rfl

/-- A code unit that is no half of a pair is a character. -/
theorem bytes?_code {n : Nat} (h : n < 0xD800) (rest : Quoted) :
    bytes? (.code n :: rest) = (bytes? rest).map (String.utf8EncodeChar (Char.ofNat n) ++ ·) := by
  have hleading : isLeading n = false := by
    simp [isLeading]
    omega
  have htrailing : isTrailing n = false := by
    simp [isTrailing]
    omega
  cases rest with
  | nil => simp [bytes?, hleading, htrailing]
  | cons unit rest => cases unit <;> simp [bytes?, hleading, htrailing]

/-- The bytes of a character are read from its units. -/
theorem bytes?_units (c : Char) (rest : Quoted) :
    bytes? (units c ++ rest) = (bytes? rest).map (String.utf8EncodeChar c ++ ·) := by
  rw [units]
  split
  · next hc =>
    have hsmall : c.toNat < 0xD800 := Nat.lt_trans hc.2 (by decide)
    rw [List.singleton_append, bytes?_code hsmall, Char.ofNat_toNat]
  · exact bytes?_bytes _ _

/-- A text that is quoted is read back. -/
theorem text?_ofText (s : String) : text? (ofText s) = some s := by
  have hbytes : ∀ cs : List Char,
      bytes? (cs.flatMap units) = some (cs.flatMap String.utf8EncodeChar) := by
    intro cs
    induction cs with
    | nil => rfl
    | cons c cs ih => rw [List.flatMap_cons, bytes?_units, ih, List.flatMap_cons, Option.map_some]
  rw [text?, ofText, hbytes]
  exact Utf8.decode?_encode s

end Quoted

namespace Token.Scan

variable {tokens : List Token} {read : Quoted} {scan : Scan} {c : Char}

/-- Takes the bytes of a text. -/
def run (scan : Scan) (cs : List Char) : Option Scan :=
  (cs.flatMap String.utf8EncodeChar).foldlM step scan

@[simp] theorem run_nil (scan : Scan) : run scan [] = some scan := rfl

theorem run_append (scan : Scan) (xs ys : List Char) :
    run scan (xs ++ ys) = (run scan xs).bind (run · ys) := by
  rw [run, List.flatMap_append, List.foldlM_append]
  rfl

theorem utf8EncodeChar_ascii (hc : c.toNat < 0x80) :
    String.utf8EncodeChar c = [.ofNat c.toNat] := if_pos (Nat.le_of_lt_succ hc)

theorem run_cons_of_ascii (hc : c.toNat < 0x80) (scan : Scan) (cs : List Char) :
    run scan (c :: cs) = (step scan (.ofNat c.toNat)).bind (run · cs) := by
  rw [run, List.flatMap_cons, utf8EncodeChar_ascii hc]
  rfl

theorem step_between (tokens : List Token) (b : UInt8) :
    step ⟨tokens, .between⟩ b = start tokens (Char.ofNat b.toNat) := rfl

theorem step_quoted (tokens : List Token) (read : Quoted) (b : UInt8) :
    step ⟨tokens, .quoted read⟩ b =
      if Char.ofNat b.toNat = '"' then some ⟨.text read.reverse :: tokens, .between⟩
      else if Char.ofNat b.toNat = '\\' then some ⟨tokens, .escaped read⟩
      else if b < 0x20 then none
      else some ⟨tokens, .quoted (.byte b :: read)⟩ := rfl

theorem step_code (tokens : List Token) (read : Quoted) (owed value : Nat) (b : UInt8) :
    step ⟨tokens, .code read owed value⟩ b =
      (digitValue? 16 (Char.ofNat b.toNat)).map fun digit =>
        if owed ≤ 1 then ⟨tokens, .quoted (.code (16 * value + digit) :: read)⟩
        else ⟨tokens, .code read (owed - 1) (16 * value + digit)⟩ := rfl

/-! ## Inside quotes -/

theorem toNat_ofNat_byte (b : UInt8) : (Char.ofNat b.toNat).toNat = b.toNat := by
  have hvalid : b.toNat.isValidChar := .inl (Nat.lt_trans b.toNat_lt (by decide))
  rw [Char.ofNat, dif_pos hvalid]
  rfl

theorem ofNat_toNat_ascii (hc : c.toNat < 0x80) :
    Char.ofNat (UInt8.ofNat c.toNat).toNat = c := by
  rw [UInt8.toNat_ofNat_of_lt' (Nat.lt_trans hc (by decide)), Char.ofNat_toNat]

/-- A byte that stands for itself inside quotes. -/
structure IsPlain (b : UInt8) : Prop where
  notQuote : Char.ofNat b.toNat ≠ '"'
  notBackslash : Char.ofNat b.toNat ≠ '\\'
  notControl : ¬b < 0x20

/-- Plain bytes are kept. -/
theorem foldlM_plain {bytes : List UInt8} (h : ∀ b ∈ bytes, IsPlain b) (read : Quoted) :
    bytes.foldlM step ⟨tokens, .quoted read⟩ =
      some ⟨tokens, .quoted ((bytes.map .byte).reverse ++ read)⟩ := by
  induction bytes generalizing read with
  | nil => rfl
  | cons b bytes ih =>
    obtain ⟨hb, hbytes⟩ := List.forall_mem_cons.mp h
    have hstep : step ⟨tokens, .quoted read⟩ b = some ⟨tokens, .quoted (.byte b :: read)⟩ := by
      rw [step_quoted, if_neg hb.notQuote, if_neg hb.notBackslash, if_neg hb.notControl]
    rw [List.foldlM_cons, hstep, Option.bind_eq_bind, Option.bind_some, ih hbytes]
    simp

theorem isPlain_of_ascii (hc : c.toNat < 0x80) (hquote : c ≠ '"') (hbackslash : c ≠ '\\')
    (hcontrol : 0x20 ≤ c.toNat) : IsPlain (.ofNat c.toNat) := by
  refine ⟨by rwa [ofNat_toNat_ascii hc], by rwa [ofNat_toNat_ascii hc], ?_⟩
  rw [UInt8.lt_iff_toNat_lt, UInt8.toNat_ofNat_of_lt' (Nat.lt_trans hc (by decide))]
  exact Nat.not_lt.mpr hcontrol

/-- Bytes that are no ASCII characters stand for themselves. -/
theorem isPlain_of_le {b : UInt8} (h : 0x80 ≤ b.toNat) : IsPlain b := by
  have hne : ∀ c : Char, c.toNat < 0x80 → Char.ofNat b.toNat ≠ c := by
    rintro _ hc rfl
    rw [toNat_ofNat_byte] at hc
    omega
  refine ⟨hne _ (by decide), hne _ (by decide), ?_⟩
  rw [UInt8.lt_iff_toNat_lt]
  exact Nat.not_lt.mpr (Nat.le_trans (by decide) h)

/-- The bytes of a character are plain unless it has to be escaped. -/
theorem isPlain_of_mem_utf8EncodeChar (hquote : c ≠ '"') (hbackslash : c ≠ '\\')
    (hcontrol : 0x20 ≤ c.toNat) : ∀ b ∈ String.utf8EncodeChar c, IsPlain b := by
  by_cases hc : c.toNat < 0x80
  · rw [utf8EncodeChar_ascii hc, List.forall_mem_singleton]
    exact isPlain_of_ascii hc hquote hbackslash hcontrol
  · -- All bytes of a longer character have their highest bit set.
    have hhigh : ¬c.val.toNat ≤ 127 := fun h => hc (Nat.lt_succ_of_le h)
    intro b hb
    apply isPlain_of_le
    rw [String.utf8EncodeChar] at hb
    simp only [hhigh, if_false] at hb
    split at hb
    · simp only [List.mem_cons, List.not_mem_nil, or_false] at hb
      rcases hb with rfl | rfl <;> simp <;> omega
    · split at hb <;>
      · simp only [List.mem_cons, List.not_mem_nil, or_false] at hb
        rcases hb with rfl | rfl | rfl | rfl <;> simp <;> omega

/-! ## Written characters -/

/-- An escape of one letter is scanned as the character that it stands for. -/
theorem run_letter {letter : Char} (h : (c, letter) ∈ Quoted.letters) (cs : List Char) :
    run ⟨tokens, .quoted read⟩ ('\\' :: letter :: cs) =
      run ⟨tokens, .quoted (.byte (.ofNat c.toNat) :: read)⟩ cs := by
  have hpairs : ∀ pair ∈ Quoted.letters, run ⟨tokens, .quoted read⟩ ('\\' :: pair.2 :: cs) =
      run ⟨tokens, .quoted (.byte (.ofNat pair.1.toNat) :: read)⟩ cs := by
    simp only [Quoted.letters, List.forall_mem_cons]
    exact ⟨rfl, rfl, rfl, rfl, rfl, rfl, rfl, nofun⟩
  exact hpairs (c, letter) h

theorem run_hexDigit {digit : Nat} (hdigit : digit < 16) (owed value : Nat) (cs : List Char) :
    run ⟨tokens, .code read owed value⟩ (hexDigit digit :: cs) =
      run (if owed ≤ 1 then ⟨tokens, .quoted (.code (16 * value + digit) :: read)⟩
        else ⟨tokens, .code read (owed - 1) (16 * value + digit)⟩) cs := by
  have hascii : (hexDigit digit).toNat < 0x80 := by
    revert digit
    decide
  rw [run_cons_of_ascii hascii, step_code, ofNat_toNat_ascii hascii, digitValue?_hexDigit hdigit]
  rfl

/-- A code unit is read back from its four digits. -/
theorem run_hexDigits {n : Nat} (hn : n < 0x10000) (cs : List Char) :
    run ⟨tokens, .quoted read⟩ ('\\' :: 'u' :: hexDigits 4 n ++ cs) =
      run ⟨tokens, .quoted (.code n :: read)⟩ cs := by
  have hmod : ∀ m, m % 16 < 16 := fun m => Nat.mod_lt m (by decide)
  have hopen : run ⟨tokens, .quoted read⟩ ('\\' :: 'u' :: hexDigits 4 n ++ cs) =
      run ⟨tokens, .code read 4 0⟩ (hexDigit (n / 16 / 16 / 16 % 16) ::
        hexDigit (n / 16 / 16 % 16) :: hexDigit (n / 16 % 16) :: hexDigit (n % 16) :: cs) := rfl
  have hvalue : 16 * (16 * (16 * (16 * 0 + n / 16 / 16 / 16 % 16) + n / 16 / 16 % 16) +
      n / 16 % 16) + n % 16 = n := by omega
  rw [hopen, run_hexDigit (hmod _), if_neg (by decide), run_hexDigit (hmod _), if_neg (by decide),
    run_hexDigit (hmod _), if_neg (by decide), run_hexDigit (hmod _), if_pos (by decide), hvalue]

/-- An escaped character is scanned as the units of the character. -/
theorem run_escape (c : Char) (cs : List Char) :
    run ⟨tokens, .quoted read⟩ (Quoted.escape c ++ cs) =
      run ⟨tokens, .quoted ((Quoted.units c).reverse ++ read)⟩ cs := by
  rw [Quoted.escape, Quoted.units]
  cases hletter : Quoted.letters.lookup c with
  | some letter =>
    obtain ⟨front, back, hletters, -⟩ := List.lookup_eq_some_iff.mp hletter
    have hmem : (c, letter) ∈ Quoted.letters :=
      hletters ▸ List.mem_append_right _ List.mem_cons_self
    have hascii : ∀ pair ∈ Quoted.letters, pair.1.toNat < 0x80 := by decide
    simp only [Option.isNone_some, Bool.false_eq_true, false_and, if_false,
      utf8EncodeChar_ascii (hascii _ hmem)]
    exact run_letter hmem cs
  | none =>
    by_cases hcontrol : c.toNat < 0x20
    · simp only [hcontrol, if_true]
      exact run_hexDigits (Nat.lt_trans hcontrol (by decide)) cs
    · have hplain : ∀ b ∈ String.utf8EncodeChar c, IsPlain b := by
        refine isPlain_of_mem_utf8EncodeChar ?_ ?_ (Nat.le_of_not_lt hcontrol) <;>
        · rintro rfl
          cases hletter
      simp only [hcontrol, if_false, and_false]
      rw [run_append, run, List.flatMap_singleton, foldlM_plain hplain]
      rfl

/-- A written text is scanned as one token. -/
theorem run_write (s : String) (cs : List Char) :
    run ⟨tokens, .between⟩ (Quoted.write s ++ cs) =
      run ⟨.text (Quoted.ofText s) :: tokens, .between⟩ cs := by
  have hrun : ∀ (text cs : List Char) (read : Quoted),
      run ⟨tokens, .quoted read⟩ (text.flatMap Quoted.escape ++ '"' :: cs) =
        run ⟨.text (read.reverse ++ text.flatMap Quoted.units) :: tokens, .between⟩ cs := by
    intro text cs
    induction text with
    | nil =>
      intro read
      rw [List.flatMap_nil, List.flatMap_nil, List.append_nil]
      rfl
    | cons c text ih =>
      intro read
      rw [List.flatMap_cons, List.append_assoc, run_escape, ih, List.reverse_append,
        List.reverse_reverse, List.append_assoc, List.flatMap_cons]
  have hopen : run ⟨tokens, .between⟩ (Quoted.write s ++ cs) =
      run ⟨tokens, .quoted []⟩ (s.toList.flatMap Quoted.escape ++ '"' :: cs) := by
    rw [Quoted.write, List.cons_append, List.cons_append, List.append_assoc]
    rfl
  rw [hopen, hrun]
  rfl

end Token.Scan

end TypeLang.Json
