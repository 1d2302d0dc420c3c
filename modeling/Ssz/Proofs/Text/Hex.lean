-- SUMMARY: Bytes have one spelling in small hexadecimal digits.
import Ssz.Proofs.Text.Scalars

/-!
# Hexadecimal spelling

Digits are read in either case, so bytes have many spellings. The writer's is the
one without capital letters: `Spells` says so without the writer, and the law is
that there is no other such text.
-/

namespace Ssz.Hex

/-- The digits in small letters. -/
def smallDigits : List Char :=
  ['0', '1', '2', '3', '4', '5', '6', '7', '8', '9', 'a', 'b', 'c', 'd', 'e', 'f']

/-- The text is of digits in small letters and is read as the bytes. -/
structure Spells (text : List Char) (bytes : Bytes) : Prop where
  small : ∀ c ∈ text, c ∈ smallDigits
  read : Hex.read text = .ok bytes

theorem mem_smallDigits_iff {c : Char} : c ∈ smallDigits ↔ ∃ d < 16, Nat.digitChar d = c := by
  have hall : smallDigits = (List.range 16).map Nat.digitChar := by decide
  simp only [hall, List.mem_map, List.mem_range]

theorem mem_smallDigits_of_mem_digits {bytes : Bytes} {c : Char} (h : c ∈ digits bytes) :
    c ∈ smallDigits := by
  obtain ⟨b, -, hc⟩ := List.mem_flatMap.1 h
  have hb : b.toNat < 256 := b.toNat_lt
  simp only [List.mem_cons, List.not_mem_nil, or_false] at hc
  rcases hc with rfl | rfl
  · exact mem_smallDigits_iff.2 ⟨_, by omega, rfl⟩
  · exact mem_smallDigits_iff.2 ⟨_, Nat.mod_lt _ (by decide), rfl⟩

theorem length_digits (bytes : Bytes) : (digits bytes).length = 2 * bytes.length := by
  induction bytes with
  | nil => rfl
  | cons b bytes ih =>
    rw [digits_cons, List.length_cons, List.length_cons, ih, List.length_cons]
    omega

/-- Two digits are the two halves of the byte that they are read as. -/
theorem halves {high low : Nat} (hhigh : high < 16) (hlow : low < 16) :
    (16 * UInt8.ofNat high + UInt8.ofNat low).toNat / 16 = high ∧
      (16 * UInt8.ofNat high + UInt8.ofNat low).toNat % 16 = low := by
  simp only [UInt8.toNat_add, UInt8.toNat_mul, UInt8.toNat_ofNat', UInt8.reduceToNat]
  omega

/-- Small digits, in pairs, are written again as they were read. -/
theorem eq_digits_of_readPairs : (text : List Char) → (∀ c ∈ text, c ∈ smallDigits) →
    ∀ {index : Nat} {bytes : Bytes}, ¬ (utf8 text).length % 2 = 1 →
      readPairs index (utf8 text) = .ok bytes → text = digits bytes
  | [], _, _, _, _, hread => by
    cases hread
    rfl
  | [c], hsmall, _, _, heven, _ => by
    obtain ⟨d, hd, rfl⟩ := mem_smallDigits_iff.1 (hsmall c List.mem_cons_self)
    rw [utf8_cons, utf8EncodeChar_digitChar d hd] at heven
    exact absurd rfl heven
  | c :: c' :: text, hsmall, index, bytes, heven, hread => by
    obtain ⟨hc, hc', hrest⟩ := by simpa only [List.forall_mem_cons] using hsmall
    obtain ⟨high, hhigh, rfl⟩ := mem_smallDigits_iff.1 hc
    obtain ⟨low, hlow, rfl⟩ := mem_smallDigits_iff.1 hc'
    have hcodes : utf8 (Nat.digitChar high :: Nat.digitChar low :: text)
        = digitCode high :: digitCode low :: utf8 text := by
      rw [utf8_cons, utf8_cons, utf8EncodeChar_digitChar high hhigh,
        utf8EncodeChar_digitChar low hlow]
      rfl
    rw [hcodes] at heven hread
    simp only [readPairs, nibble, nibble?_digitCode high hhigh, nibble?_digitCode low hlow,
      bind_eq_ok, Except.ok.injEq, exists_eq_left', pure_eq_ok] at hread
    obtain ⟨tail, htail, rfl⟩ := hread
    have heven' : ¬ (utf8 text).length % 2 = 1 := by
      rw [List.length_cons, List.length_cons] at heven
      omega
    obtain ⟨hdiv, hmod⟩ := halves hhigh hlow
    rw [digits_cons, hdiv, hmod, eq_digits_of_readPairs text hrest heven' htail]

/-- The writer's text is the only one in small digits that is read as the bytes. -/
theorem spells_iff {text : List Char} {bytes : Bytes} :
    Spells text bytes ↔ text = digits bytes := by
  constructor
  · rintro ⟨hsmall, hread⟩
    rw [read] at hread
    split at hread
    · cases hread
    · rename_i heven
      exact eq_digits_of_readPairs text hsmall heven hread
  · rintro rfl
    exact ⟨fun _ => mem_smallDigits_of_mem_digits, read_digits bytes⟩

theorem render_eq_iff {bytes : Bytes} {text : String} :
    render bytes = text ↔ Spells text.toList bytes := by
  rw [spells_iff, render, eq_comm, ← String.toList_inj, String.toList_ofList]

theorem spells_render (bytes : Bytes) : Spells (render bytes).toList bytes := render_eq_iff.1 rfl

end Ssz.Hex
