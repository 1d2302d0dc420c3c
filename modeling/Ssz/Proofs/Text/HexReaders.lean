-- SUMMARY: Fixed byte strings and the readers of byte shapes accept the same hexadecimal texts.
import Ssz.Proofs.Text.Accepts
import Ssz.Proofs.Typed.Collection
import Ssz.Typed.FixedBytes

/-!
# Readers of hexadecimal text

Roots, keys and signatures have a reader of their own, beside the one for byte shapes
within a tree. Both take off one mark, read pairs of digits from the codes of the text
and check the length. What they accept is said here by characters: two digits for each
byte, of either case, in an order that is that of the bytes.
-/

namespace Ssz

open Text

namespace Hex

/-! ## Digits -/

/-- The value of a digit of either case. -/
def digitValue? (c : Char) : Option Nat :=
  if '0' ≤ c ∧ c ≤ '9' then some (c.toNat - '0'.toNat)
  else if 'a' ≤ c ∧ c ≤ 'f' then some (c.toNat - 'a'.toNat + 10)
  else if 'A' ≤ c ∧ c ≤ 'F' then some (c.toNat - 'A'.toNat + 10)
  else none

/-- The values of the two digits of each byte, the high one first. -/
def digitValues (bytes : Bytes) : List Nat :=
  bytes.flatMap fun b => [b.toNat / 16, b.toNat % 16]

/-- The characters are digits, and the bytes are made of them. -/
def Denotes (digits : List Char) (bytes : Bytes) : Prop :=
  digits.map digitValue? = (digitValues bytes).map some

instance (digits : List Char) (bytes : Bytes) : Decidable (Denotes digits bytes) :=
  inferInstanceAs (Decidable (_ = _))

theorem digitValues_cons (b : UInt8) (bytes : Bytes) :
    digitValues (b :: bytes) = b.toNat / 16 :: b.toNat % 16 :: digitValues bytes := rfl

theorem length_digitValues (bytes : Bytes) : (digitValues bytes).length = 2 * bytes.length := by
  induction bytes with
  | nil => rfl
  | cons b bytes ih =>
    rw [digitValues_cons, List.length_cons, List.length_cons, ih, List.length_cons]
    omega

theorem Denotes.length_eq {digits : List Char} {bytes : Bytes} (h : Denotes digits bytes) :
    digits.length = 2 * bytes.length := by
  have hlength := congrArg List.length h
  rwa [List.length_map, List.length_map, length_digitValues] at hlength

theorem denotes_cons {high low : Char} {digits : List Char} {b : UInt8} {bytes : Bytes} :
    Denotes (high :: low :: digits) (b :: bytes) ↔
      digitValue? high = some (b.toNat / 16) ∧ digitValue? low = some (b.toNat % 16) ∧
        Denotes digits bytes := by
  simp only [Denotes, digitValues_cons, List.map_cons, List.cons.injEq]

/-! ## Digits and their codes -/

/-- The value of a digit, given by its code. -/
def codeValue? (b : UInt8) : Option Nat := (nibble? b).map UInt8.toNat

theorem codeValue?_ascii :
    ∀ v < 128, codeValue? (UInt8.ofNat v) = digitValue? (Char.ofNat v) := by decide

theorem codeValue?_of_ge {b : UInt8} (h : 128 ≤ b.toNat) : codeValue? b = none := by
  have hle (k : UInt8) (hk : k.toNat < 128) : ¬ b ≤ k := by
    rw [UInt8.le_iff_toNat_le]
    omega
  simp only [codeValue?, nibble?, hle 0x39 (by decide), hle 0x66 (by decide), hle 0x46 (by decide),
    and_false, if_false, Option.map_none]

theorem digitValue?_of_ge {c : Char} (h : 128 ≤ c.toNat) : digitValue? c = none := by
  have hle (k : Char) (hk : k.toNat < 128) : ¬ c ≤ k := by
    rw [Char.le_def, UInt32.le_iff_toNat_le]
    exact Nat.not_le.2 (Nat.lt_of_lt_of_le hk h)
  simp only [digitValue?, hle '9' (by decide), hle 'f' (by decide), hle 'F' (by decide), and_false,
    if_false]

/-- A character that is not ASCII has a first code that is not either. -/
theorem utf8EncodeChar_of_ge {c : Char} (h : 128 ≤ c.toNat) :
    ∃ b rest, String.utf8EncodeChar c = b :: rest ∧ 128 ≤ b.toNat := by
  have hv : ¬ c.val.toNat ≤ 127 := Nat.not_le.2 h
  simp only [String.utf8EncodeChar, if_neg hv]
  split
  · refine ⟨_, _, rfl, ?_⟩
    simp only [UInt8.toNat_ofNat']
    omega
  · split
    · refine ⟨_, _, rfl, ?_⟩
      simp only [UInt8.toNat_ofNat']
      omega
    · refine ⟨_, _, rfl, ?_⟩
      simp only [UInt8.toNat_ofNat']
      omega

/-- The first code of a character has the value of the character, and there are no more codes if
    that is a digit. -/
theorem utf8EncodeChar_digit (c : Char) :
    ∃ b rest, String.utf8EncodeChar c = b :: rest ∧ codeValue? b = digitValue? c ∧
      (digitValue? c ≠ none → rest = []) := by
  by_cases h : c.toNat < 128
  · have hencode : String.utf8EncodeChar c = [UInt8.ofNat c.toNat] :=
      if_pos (Nat.le_of_lt_succ h)
    have hvalue := codeValue?_ascii c.toNat h
    rw [Char.ofNat_toNat] at hvalue
    exact ⟨_, [], hencode, hvalue, fun _ => rfl⟩
  · have hge := Nat.not_lt.1 h
    obtain ⟨b, rest, hencode, hb⟩ := utf8EncodeChar_of_ge hge
    have hnone := digitValue?_of_ge hge
    exact ⟨b, rest, hencode, (codeValue?_of_ge hb).trans hnone.symm,
      fun hsome => absurd hnone hsome⟩

/-- A text is made of digits of some values if its codes are. -/
theorem map_codeValue?_utf8 {text : List Char} {values : List Nat} :
    (utf8 text).map codeValue? = values.map some ↔ text.map digitValue? = values.map some := by
  induction text generalizing values with
  | nil => exact Iff.rfl
  | cons c text ih =>
    obtain ⟨b, rest, hencode, hvalue, hrest⟩ := utf8EncodeChar_digit c
    rw [utf8_cons, hencode, List.cons_append, List.map_cons, List.map_cons, hvalue]
    cases hc : digitValue? c with
    | none => cases values <;> simp
    | some d =>
      rw [hrest (by simp [hc]), List.nil_append]
      cases values with
      | nil => simp
      | cons value values => rw [List.map_cons, List.cons.injEq, List.cons.injEq, ih]

/-! ## Pairs of digits -/

theorem nibble_eq_ok {index : Nat} {b n : UInt8} :
    nibble index b = .ok n ↔ codeValue? b = some n.toNat := by
  unfold nibble codeValue?
  cases nibble? b with
  | none => simp
  | some m => simp [UInt8.toNat_inj]

theorem codeValue?_lt {b : UInt8} {n : Nat} (h : codeValue? b = some n) : n < 16 := by
  by_cases hb : b.toNat < 128
  · have hall : ∀ v < 128, ∀ m ∈ codeValue? (UInt8.ofNat v), m < 16 := by decide
    have hdigit := hall b.toNat hb
    rw [UInt8.ofNat_toNat] at hdigit
    exact hdigit n h
  · rw [codeValue?_of_ge (Nat.not_lt.1 hb)] at h
    cases h

theorem join_eq_iff {high low b : UInt8} (hhigh : high.toNat < 16) (hlow : low.toNat < 16) :
    16 * high + low = b ↔ high.toNat = b.toNat / 16 ∧ low.toNat = b.toNat % 16 := by
  rw [← UInt8.toNat_inj]
  simp only [UInt8.toNat_add, UInt8.toNat_mul, UInt8.reduceToNat]
  omega

theorem readPairs_eq_ok_iff : (codes : Bytes) → ∀ {index : Nat} {bytes : Bytes},
    ¬ codes.length % 2 = 1 →
    (readPairs index codes = .ok bytes ↔ codes.map codeValue? = (digitValues bytes).map some)
  | [], index, bytes, _ => by
    cases bytes <;> simp [readPairs, digitValues]
  | [c], _, _, heven => absurd rfl heven
  | high :: low :: codes, index, bytes, heven => by
    have hrest : ¬ codes.length % 2 = 1 := by
      rw [List.length_cons, List.length_cons] at heven
      omega
    simp only [readPairs, bind_eq_ok, pure_eq_ok, nibble_eq_ok, List.map_cons]
    constructor
    · rintro ⟨h, hhigh, l, hlow, tail, htail, rfl⟩
      obtain ⟨hdiv, hmod⟩ := (join_eq_iff (codeValue?_lt hhigh) (codeValue?_lt hlow)).1 rfl
      rw [digitValues_cons, List.map_cons, List.map_cons, ← hdiv, ← hmod, hhigh, hlow,
        (readPairs_eq_ok_iff codes hrest).1 htail]
    · intro hvalues
      cases bytes with
      | nil => cases hvalues
      | cons b bytes =>
        rw [digitValues_cons, List.map_cons, List.map_cons, List.cons.injEq, List.cons.injEq]
          at hvalues
        obtain ⟨hhigh, hlow, htail⟩ := hvalues
        have htoNat {k : Nat} (hk : k < 256) : (UInt8.ofNat k).toNat = k :=
          UInt8.toNat_ofNat_of_lt' hk
        have hb : b.toNat < 256 := b.toNat_lt
        refine ⟨UInt8.ofNat (b.toNat / 16), ?_, UInt8.ofNat (b.toNat % 16), ?_, bytes,
          (readPairs_eq_ok_iff codes hrest).2 htail, by rw [join_nibbles]⟩
        · rw [hhigh, htoNat (by omega)]
        · rw [hlow, htoNat (by omega)]

/-- Exactly the digits of bytes are read, of either case. -/
theorem read_eq_ok_iff {text : List Char} {bytes : Bytes} :
    read text = .ok bytes ↔ Denotes text bytes := by
  unfold read Denotes
  rw [← map_codeValue?_utf8]
  simp only
  split
  case isTrue hodd =>
    refine iff_of_false nofun fun hvalues => ?_
    have hlength := congrArg List.length hvalues
    rw [List.length_map, List.length_map, length_digitValues] at hlength
    omega
  case isFalse heven => exact readPairs_eq_ok_iff _ heven

/-! ## The mark -/

/-- The digits are what is left of the text without the mark, if it has one. -/
def Marks (text digits : List Char) : Prop := text = digits ∨ text = '0' :: 'x' :: digits

/-- The mark is no digit, so that it cannot be left on, and a second one cannot be read. -/
theorem not_denotes_marked {text : List Char} {bytes : Bytes} :
    ¬ Denotes ('0' :: 'x' :: text) bytes := by
  intro h
  cases bytes with
  | nil => cases h
  | cons b bytes =>
    obtain ⟨-, hmark, -⟩ := denotes_cons.1 h
    cases hmark

theorem readMarked_eq_ok_iff {text : List Char} {bytes : Bytes} :
    readMarked text = .ok bytes ↔ ∃ digits, Marks text digits ∧ Denotes digits bytes := by
  rw [readMarked, read_eq_ok_iff]
  unfold unmarked
  split
  case h_1 digits =>
    constructor
    · exact fun h => ⟨digits, .inr rfl, h⟩
    · rintro ⟨_, rfl | hmarked, h⟩
      · exact absurd h not_denotes_marked
      · cases hmarked
        exact h
  case h_2 hunmarked =>
    constructor
    · exact fun h => ⟨text, .inl rfl, h⟩
    · rintro ⟨digits, rfl | hmarked, h⟩
      · exact h
      · exact absurd hmarked (hunmarked digits)

/-! ## Which texts denote bytes -/

theorem digitValue?_lt {c : Char} {d : Nat} (h : digitValue? c = some d) : d < 16 := by
  obtain ⟨b, -, -, hvalue, -⟩ := utf8EncodeChar_digit c
  exact codeValue?_lt (hvalue.trans h)

/-- Two digits make a byte. -/
theorem exists_byte {high low : Nat} (hhigh : high < 16) (hlow : low < 16) :
    ∃ b : UInt8, b.toNat / 16 = high ∧ b.toNat % 16 = low := by
  have hlt : 16 * high + low < 256 := by omega
  refine ⟨UInt8.ofNat (16 * high + low), ?_⟩
  rw [UInt8.toNat_ofNat_of_lt' hlt]
  omega

theorem exists_denotes_iff : (digits : List Char) →
    ((∃ bytes, Denotes digits bytes) ↔
      (∀ c ∈ digits, (digitValue? c).isSome) ∧ digits.length % 2 = 0)
  | [] => iff_of_true ⟨[], rfl⟩ ⟨nofun, rfl⟩
  | [c] => by
    refine iff_of_false ?_ fun h => absurd h.2 Nat.one_ne_zero
    rintro ⟨bytes, h⟩
    have hlength : 1 = 2 * bytes.length := h.length_eq
    omega
  | high :: low :: digits => by
    simp only [List.forall_mem_cons, List.length_cons, Option.isSome_iff_exists]
    constructor
    · rintro ⟨bytes, h⟩
      cases bytes with
      | nil => cases h
      | cons b bytes =>
        obtain ⟨hhigh, hlow, hrest⟩ := denotes_cons.1 h
        obtain ⟨hdigits, heven⟩ := (exists_denotes_iff digits).1 ⟨bytes, hrest⟩
        simp only [Option.isSome_iff_exists] at hdigits
        exact ⟨⟨⟨_, hhigh⟩, ⟨_, hlow⟩, hdigits⟩, by omega⟩
    · rintro ⟨⟨⟨h, hhigh⟩, ⟨l, hlow⟩, hdigits⟩, heven⟩
      obtain ⟨b, rfl, rfl⟩ := exists_byte (digitValue?_lt hhigh) (digitValue?_lt hlow)
      simp only [← Option.isSome_iff_exists] at hdigits
      obtain ⟨bytes, hbytes⟩ := (exists_denotes_iff digits).2 ⟨hdigits, by omega⟩
      exact ⟨b :: bytes, denotes_cons.2 ⟨hhigh, hlow, hbytes⟩⟩

end Hex

/-! ## Two readers -/

theorem bytesOf_string {d : Dialect} {label text : String} {bytes : Bytes} :
    bytesOf d label (.string text) = .ok bytes ↔ Hex.readMarked text.toList = .ok bytes := by
  unfold bytesOf
  simp only
  cases Hex.readMarked text.toList <;> simp

namespace ByteVector

variable {n : Nat} {text : String} {x : ByteVector n}

theorem ofHex_eq_ok : ofHex n text = .ok x ↔ Hex.readMarked text.toList = .ok x.toList := by
  simp only [ofHex, bind_eq_ok]
  constructor
  · rintro ⟨bytes, hread, h⟩
    split at h
    case h_1 y hy =>
      obtain rfl := pure_eq_ok.1 h
      rwa [ofList?_eq_some.1 hy]
    case h_2 => exact absurd h throw_ne_ok
  · intro hread
    refine ⟨x.toList, hread, ?_⟩
    rw [ofList?_eq_some.2 rfl]
    rfl

theorem ofHex_iff_ofTree :
    ofHex n text = .ok x ↔
      ofTree .json (.byteVector n) (.string text) = .ok (.bytes x.toList) := by
  rw [ofHex_eq_ok, ofTree, Shape.ofTree_byteVector]
  simp only [bytesOf_string]
  constructor
  · exact fun hread => ⟨x.toList, hread, x.length_toList, rfl⟩
  · rintro ⟨bytes, hread, -, hbytes⟩
    rwa [Value.bytes.inj hbytes]

theorem ofHex_iff_denotes :
    ofHex n text = .ok x ↔
      ∃ digits, Hex.Marks text.toList digits ∧ digits.length = 2 * n ∧
        Hex.Denotes digits x.toList := by
  rw [ofHex_eq_ok, Hex.readMarked_eq_ok_iff]
  refine exists_congr fun digits => and_congr_right fun _ => ?_
  exact (and_iff_right_of_imp fun h => h.length_eq.trans (congrArg _ x.length_toList)).symm

theorem ofHex_toHex (x : ByteVector n) : ofHex n x.toHex = .ok x := by
  rw [ofHex_eq_ok, toHex, Hex.render, String.toList_ofList, Hex.readMarked_eq_ok_iff]
  exact ⟨_, .inl rfl, Hex.read_eq_ok_iff.1 (Hex.read_digits x.toList)⟩

theorem ofHex_display (x : ByteVector n) : ofHex n x.display = .ok x := by
  rw [ofHex_eq_ok, display, Hex.toList_renderMarked, Hex.readMarked_marked]

end ByteVector

/-- The reader of fixed byte strings and those of byte shapes take the same texts for the same
    bytes: digits of either case, two for each byte, behind at most one mark. -/
theorem ofHex_agrees (n : Nat) (text : String) :
    (∀ x : ByteVector n, ByteVector.ofHex n text = .ok x ↔
      ofTree .json (.byteVector n) (.string text) = .ok (.bytes x.toList)) ∧
    (∀ x : ByteVector n, ByteVector.ofHex n text = .ok x ↔
      ∃ digits, Hex.Marks text.toList digits ∧ digits.length = 2 * n ∧
        Hex.Denotes digits x.toList) ∧
    (∀ x : ByteVector n, ByteVector.ofHex n x.toHex = .ok x ∧
      ByteVector.ofHex n x.display = .ok x) ∧
    (∀ d label v, (Shape.byteVector n).ofTree d label (.string text) = .ok v ↔
      ∃ digits bytes, Hex.Marks text.toList digits ∧ Hex.Denotes digits bytes ∧
        bytes.length = n ∧ v = .bytes bytes) ∧
    (∀ max d label v, (Shape.byteList max).ofTree d label (.string text) = .ok v ↔
      ∃ digits bytes, Hex.Marks text.toList digits ∧ Hex.Denotes digits bytes ∧
        bytes.length ≤ max ∧ v = .bytes bytes) ∧
    ∀ digits, (∃ bytes, Hex.Denotes digits bytes) ↔
      (∀ c ∈ digits, (Hex.digitValue? c).isSome) ∧ digits.length % 2 = 0 := by
  have hread (d : Dialect) (label : String) (p : Bytes → Prop) :
      (∃ bytes, bytesOf d label (.string text) = .ok bytes ∧ p bytes) ↔
        ∃ digits bytes, Hex.Marks text.toList digits ∧ Hex.Denotes digits bytes ∧ p bytes := by
    simp only [bytesOf_string, Hex.readMarked_eq_ok_iff]
    constructor
    · rintro ⟨bytes, ⟨digits, hmarks, hdenotes⟩, hp⟩
      exact ⟨digits, bytes, hmarks, hdenotes, hp⟩
    · rintro ⟨digits, bytes, hmarks, hdenotes, hp⟩
      exact ⟨bytes, ⟨digits, hmarks, hdenotes⟩, hp⟩
  refine ⟨fun _ => ByteVector.ofHex_iff_ofTree, fun _ => ByteVector.ofHex_iff_denotes,
    fun x => ⟨x.ofHex_toHex, x.ofHex_display⟩, fun d label v => ?_, fun max d label v => ?_,
    Hex.exists_denotes_iff⟩
  · exact Shape.ofTree_byteVector.trans (hread d label _)
  · exact Shape.ofTree_byteList.trans (hread d label _)

/-- Digits of both cases are read, and only one mark is taken off. -/
example : Hex.Denotes "AbcD".toList [0xAB, 0xCD] ∧
    (ByteVector.ofHex 2 "0xAbcD").map ByteVector.toList = .ok [0xAB, 0xCD] ∧
    ByteVector.ofHex 2 "0x0xAbcD" = .error (.invalidCharacter 0x78 1) := by decide

end Ssz
