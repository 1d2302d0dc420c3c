-- SUMMARY: The wire form of bitlists is a bijection, and its maximum is met exactly.
import Mathlib.Order.Bounds.Basic
import Ssz.Proofs.Bits.Runs

/-!
# The sentinel of a bitlist

On the wire a bitlist has no length of its own: one more set bit, the highest of
the last byte, stands behind the last bit of the list. Here the place of that bit
is told of the bytes alone. The byte strings that have one are exactly the wire
forms of bitlists, one for each list, and a maximum refuses exactly those whose
sentinel stands behind more bits than it allows.
-/

namespace Ssz.Bits

/-! ## Where the sentinel stands -/

/-- The sentinel of the byte string, the highest set bit of its last byte, stands behind `length`
    bits. -/
def MarkedAt (bytes : Bytes) (length : Nat) : Prop :=
  ∃ front last sentinel, bytes = front ++ [last] ∧
    IsGreatest {k | testBit last k = true} sentinel ∧ length = 8 * front.length + sentinel

theorem isGreatest_log2 {b : UInt8} (h : b ≠ 0) :
    IsGreatest {k | testBit b k = true} b.toNat.log2 := by
  refine ⟨testBit_highest h, fun k hk => ?_⟩
  by_contra hlt
  have hclear : testBit b k = false := testBit_log2 (Nat.lt_of_not_le hlt)
  exact Bool.false_ne_true (hclear.symm.trans hk)

theorem markedAt_concat {front : Bytes} {last : UInt8} {length : Nat} :
    MarkedAt (front ++ [last]) length ↔
      last ≠ 0 ∧ length = 8 * front.length + last.toNat.log2 := by
  constructor
  · rintro ⟨front', last', sentinel, hbytes, hgreatest, rfl⟩
    obtain ⟨rfl, hlast⟩ := List.append_inj' hbytes rfl
    cases hlast
    have hne : last ≠ 0 := ne_zero_of_testBit hgreatest.1
    exact ⟨hne, congrArg _ (hgreatest.unique (isGreatest_log2 hne))⟩
  · rintro ⟨hne, rfl⟩
    exact ⟨front, last, _, rfl, isGreatest_log2 hne, rfl⟩

theorem not_markedAt_nil {length : Nat} : ¬ MarkedAt [] length := by
  rintro ⟨front, last, -, hbytes, -⟩
  exact List.append_ne_nil_of_right_ne_nil front (List.cons_ne_nil last []) hbytes.symm

theorem MarkedAt.unique {bytes : Bytes} {m n : Nat} (hm : MarkedAt bytes m)
    (hn : MarkedAt bytes n) : m = n := by
  obtain ⟨front, last, -, rfl, -⟩ := id hm
  rw [(markedAt_concat.1 hm).2, (markedAt_concat.1 hn).2]

/-- There is a sentinel as soon as there is a last byte and it is not zero. -/
theorem exists_markedAt {bytes : Bytes} :
    (∃ length, MarkedAt bytes length) ↔ bytes ≠ [] ∧ bytes.getLast? ≠ some 0 := by
  rcases List.eq_nil_or_concat bytes with rfl | ⟨front, last, rfl⟩
  · exact iff_of_false (fun ⟨_, h⟩ => not_markedAt_nil h) fun h => h.1 rfl
  · simp [markedAt_concat]

/-! ## Parsing -/

theorem ofWire_of_not_markedAt {bytes : Bytes} (h : ¬ ∃ length, MarkedAt bytes length)
    (max : Nat) : ofWire bytes max = .error .missingSentinel := by
  rcases List.eq_nil_or_concat bytes with rfl | ⟨front, last, rfl⟩
  · rfl
  · have hzero : last = 0 := by
      by_contra hne
      exact h ⟨_, List.concat_eq_append ▸ markedAt_concat.2 ⟨hne, rfl⟩⟩
    unfold ofWire
    rw [if_pos (by simpa using hzero)]

theorem ofWire_of_lt {bytes : Bytes} {max length : Nat} (h : MarkedAt bytes length)
    (hmax : max < length) : ofWire bytes max = .error (.tooManyElements max length) := by
  obtain ⟨front, last, -, rfl, -⟩ := id h
  obtain ⟨hne, rfl⟩ := markedAt_concat.1 h
  unfold ofWire
  simp only [List.getLastD_concat, List.dropLast_concat]
  rw [if_neg hne, if_pos hmax]

theorem exists_ofWire_of_le {bytes : Bytes} {max length : Nat} (h : MarkedAt bytes length)
    (hmax : length ≤ max) : ∃ bits, ofWire bytes max = .ok bits := by
  obtain ⟨front, last, -, rfl, -⟩ := id h
  obtain ⟨hne, rfl⟩ := markedAt_concat.1 h
  unfold ofWire
  simp only [List.getLastD_concat, List.dropLast_concat]
  rw [if_neg hne, if_neg (Nat.not_lt.2 hmax)]
  exact ⟨_, rfl⟩

/-! ## Wire forms -/

theorem markedAt_toWire (bits : Bits) : MarkedAt bits.toWire bits.length := by
  obtain ⟨front, last, hwire, hne, hlength, -⟩ := bits.toWire_split
  exact hwire ▸ markedAt_concat.2 ⟨hne, hlength.symm⟩

theorem toList_eq_take_toWire (bits : Bits) :
    bits.toList = (bitsOf bits.toWire).take bits.length := by
  obtain ⟨padding, hbits⟩ := bits.bitsOf_toWire
  rw [hbits, ← bits.length_toList, List.take_left]

/-- The bits before the sentinel are the ones that are parsed. -/
theorem ofWire_eq_ok_iff_take {bytes : Bytes} {max : Nat} {bits : Bits} :
    ofWire bytes max = .ok bits ↔
      ∃ length, MarkedAt bytes length ∧ length ≤ max ∧
        bits = ofList ((bitsOf bytes).take length) := by
  constructor
  · intro h
    obtain ⟨rfl, hmax⟩ := ofWire_eq_ok.1 h
    exact ⟨bits.length, bits.markedAt_toWire, hmax,
      by rw [← bits.toList_eq_take_toWire, ofList_toList]⟩
  · rintro ⟨length, hmarked, hmax, rfl⟩
    obtain ⟨bits, hbits⟩ := exists_ofWire_of_le hmarked hmax
    obtain ⟨rfl, -⟩ := ofWire_eq_ok.1 hbits
    rw [hbits, hmarked.unique bits.markedAt_toWire, ← bits.toList_eq_take_toWire, ofList_toList]

theorem ofWire_eq_error_iff {bytes : Bytes} {max : Nat} {e : Malformed} :
    ofWire bytes max = .error e ↔
      ((¬ ∃ length, MarkedAt bytes length) ∧ e = .missingSentinel) ∨
        ∃ length, MarkedAt bytes length ∧ max < length ∧ e = .tooManyElements max length := by
  constructor
  · intro h
    by_cases hmarked : ∃ length, MarkedAt bytes length
    · obtain ⟨length, hlength⟩ := hmarked
      by_cases hmax : length ≤ max
      · obtain ⟨bits, hbits⟩ := exists_ofWire_of_le hlength hmax
        cases hbits.symm.trans h
      · rw [ofWire_of_lt hlength (Nat.not_le.1 hmax)] at h
        cases h
        exact .inr ⟨length, hlength, Nat.not_le.1 hmax, rfl⟩
    · rw [ofWire_of_not_markedAt hmarked] at h
      cases h
      exact .inl ⟨hmarked, rfl⟩
  · rintro (⟨hmarked, rfl⟩ | ⟨length, hlength, hmax, rfl⟩)
    · exact ofWire_of_not_markedAt hmarked max
    · exact ofWire_of_lt hlength hmax

theorem ofWire_toWire (bits : Bits) (max : Nat) :
    ofWire bits.toWire max
      = if bits.length ≤ max then .ok bits else .error (.tooManyElements max bits.length) := by
  split
  · rename_i hmax
    exact ofWire_eq_ok.2 ⟨rfl, hmax⟩
  · rename_i hmax
    exact ofWire_of_lt bits.markedAt_toWire (Nat.not_le.1 hmax)

/-- A byte string is parsed exactly if it has a sentinel that stands behind no more bits than the
    maximum. What is parsed are the bits before the sentinel, and the byte string is their wire
    form. Any other byte string is refused for the sentinel that is missing, or for the bits before
    it. Every list of bits has a wire form, which is parsed back under every maximum that the list
    meets, and refused under all others. -/
theorem wire_bijective :
    (∀ bytes max,
      ((∃ length, MarkedAt bytes length) ↔ bytes ≠ [] ∧ bytes.getLast? ≠ some 0) ∧
      (∀ bits, ofWire bytes max = .ok bits ↔
        ∃ length, MarkedAt bytes length ∧ length ≤ max ∧
          bits = ofList ((bitsOf bytes).take length)) ∧
      (∀ bits, ofWire bytes max = .ok bits →
        MarkedAt bytes bits.length ∧ bits.toList = (bitsOf bytes).take bits.length ∧
          bits.toWire = bytes) ∧
      ∀ e, ofWire bytes max = .error e ↔
        ((¬ ∃ length, MarkedAt bytes length) ∧ e = .missingSentinel) ∨
          ∃ length, MarkedAt bytes length ∧ max < length ∧ e = .tooManyElements max length) ∧
    ∀ bits : Bits, bits.toWire.length = bits.length / 8 + 1 ∧
      ∀ max, ofWire bits.toWire max
        = if bits.length ≤ max then .ok bits else .error (.tooManyElements max bits.length) := by
  constructor
  · intro bytes max
    refine ⟨exists_markedAt, fun bits => ofWire_eq_ok_iff_take, fun bits h => ?_,
      fun e => ofWire_eq_error_iff⟩
    obtain ⟨rfl, -⟩ := ofWire_eq_ok.1 h
    exact ⟨bits.markedAt_toWire, bits.toList_eq_take_toWire, rfl⟩
  · intro bits
    exact ⟨bits.length_toWire, bits.ofWire_toWire⟩

/-- Eight set bits, whose sentinel takes a byte of its own. -/
theorem wire_bijective_full_byte :
    let bits := ofList (List.replicate 8 true)
    MarkedAt [0xff, 0x01] 8 ∧ ofWire [0xff, 0x01] 8 = .ok bits ∧ bits.toWire = [0xff, 0x01] ∧
      ofWire [0xff, 0x01] 7 = .error (.tooManyElements 7 8) ∧
      ofWire [0x05, 0x00] 16 = .error .missingSentinel := by
  intro bits
  have hmarked : MarkedAt ([0xff] ++ [0x01]) 8 := markedAt_concat.2 ⟨by decide, rfl⟩
  have hbits : bits = ofList ((bitsOf [0xff, 0x01]).take 8) := by decide
  obtain ⟨-, hok, hform, -⟩ := wire_bijective.1 [0xff, 0x01] 8
  obtain ⟨-, -, -, hover⟩ := wire_bijective.1 [0xff, 0x01] 7
  obtain ⟨hexists, -, -, hmissing⟩ := wire_bijective.1 [0x05, 0x00] 16
  have hparse : ofWire [0xff, 0x01] 8 = .ok bits := (hok bits).2 ⟨8, hmarked, by decide, hbits⟩
  refine ⟨hmarked, hparse, (hform bits hparse).2.2, ?_, ?_⟩
  · exact (hover _).2 (.inr ⟨8, hmarked, by decide, rfl⟩)
  · exact (hmissing _).2 (.inl ⟨fun h => (hexists.1 h).2 rfl, rfl⟩)

end Ssz.Bits
