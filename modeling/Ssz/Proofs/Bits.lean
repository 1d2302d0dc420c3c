-- SUMMARY: The packed and the wire form of bits read back to the bits they came from.
import Ssz.Bits

/-!
# Forms of bit sequences

Packed bytes are adopted exactly if they are the packed form of some bits
(`ofPacked_eq_ok`), and a byte string parses as a bitlist exactly if it is the
wire form of one (`ofWire_eq_ok`). Bytes are compared bit by bit.
-/

namespace Ssz

/-! ## Single bytes -/

theorem testBit_toNat (b : UInt8) (k : Nat) : b.toNat.testBit k = testBit b k :=
  BitVec.testBit_toNat _

theorem byte_ext {a b : UInt8} (h : ∀ k, k < 8 → testBit a k = testBit b k) : a = b :=
  UInt8.eq_of_toBitVec_eq (BitVec.eq_of_getLsbD_eq h)

/-- Byte strings of one length with the same bits are the same. -/
theorem bytes_ext {a b : Bytes} (hlength : a.length = b.length)
    (h : ∀ i, i < 8 * a.length → bitAt a i = bitAt b i) : a = b := by
  refine List.ext_getElem hlength fun i ha hb => byte_ext fun k hk => ?_
  have hbit := h (8 * i + k) (by omega)
  have hdiv : (8 * i + k) / 8 = i := by omega
  have hmod : (8 * i + k) % 8 = k := by omega
  rwa [bitAt, bitAt, hdiv, hmod, List.getD_eq_getElem?_getD, List.getElem?_eq_getElem ha,
    List.getD_eq_getElem?_getD, List.getElem?_eq_getElem hb] at hbit

/-- The sentinel in a byte of its own. -/
theorem bitAt_one (i : Nat) : bitAt [1] i = decide (i = 0) := by
  have hlow : ∀ k < 8, testBit 1 k = decide (k = 0) := by decide
  by_cases h : i < 8
  · rw [bitAt_singleton h, hlow i h]
  · rw [bitAt_of_ge (by simpa using h), decide_eq_false (by omega)]

theorem ne_zero_of_testBit {b : UInt8} {k : Nat} (h : testBit b k = true) : b ≠ 0 := by
  rintro rfl
  rw [testBit_zero] at h
  cases h

theorem toNat_ne_zero {b : UInt8} (h : b ≠ 0) : b.toNat ≠ 0 :=
  fun hzero => h (UInt8.toNat_inj.1 hzero)

/-- The highest set bit is the logarithm. -/
theorem log2_eq_of_testBit {b : UInt8} {k : Nat} (hset : testBit b k = true)
    (hclear : ∀ j, k < j → testBit b j = false) : b.toNat.log2 = k := by
  refine (Nat.log2_eq_iff (toNat_ne_zero (ne_zero_of_testBit hset))).2 ⟨?_, ?_⟩
  · exact Nat.ge_two_pow_of_testBit ((testBit_toNat b k).trans hset)
  · refine Nat.lt_pow_two_of_testBit _ fun j hj => ?_
    rw [testBit_toNat, hclear j (by omega)]

theorem testBit_highest {b : UInt8} (h : b ≠ 0) : testBit b b.toNat.log2 = true := by
  rw [← testBit_toNat]
  exact Nat.testBit_log2 (toNat_ne_zero h)

theorem withBit_withBit {b : UInt8} {k : Nat} {value : Bool} (hk : k < 8)
    (h : testBit b k = value) (other : Bool) : withBit (withBit b k other) k value = b := by
  apply byte_ext
  intro j _
  rw [testBit_withBit hk, testBit_withBit hk]
  split
  · rename_i hj
    rw [hj, h]
  · rfl

namespace Bits

/-! ## Packed form -/

/-- Where the last byte is not full, there is a byte for each eight bits, and one for the rest. -/
theorem exists_last {bits : Bits} (hpartial : bits.length % 8 ≠ 0) :
    ∃ front last, bits.bytes = front ++ [last] ∧ front.length = bits.length / 8 := by
  have hlength := bits.length_bytes
  unfold ceilDiv at hlength
  rcases List.eq_nil_or_concat bits.bytes with hbytes | ⟨front, last, hbytes⟩
  · rw [hbytes, List.length_nil] at hlength
    omega
  · refine ⟨front, last, by rw [hbytes, List.concat_eq_append], ?_⟩
    rw [hbytes, List.length_concat] at hlength
    omega

theorem testBit_last {bits : Bits} {front : Bytes} {last : UInt8}
    (hbytes : bits.bytes = front ++ [last]) (hfront : front.length = bits.length / 8) {k : Nat}
    (hk : bits.length % 8 ≤ k) : testBit last k = false := by
  by_cases hsmall : k < 8
  · have hbit := bits.clear_beyond (8 * front.length + k) (by omega)
    rwa [hbytes, bitAt_append_right (by omega), Nat.add_sub_cancel_left, bitAt_singleton hsmall]
      at hbit
  · exact BitVec.getLsbD_of_ge _ _ (by omega)

theorem unusedClear_bytes (bits : Bits) : unusedClear bits.bytes bits.length = true := by
  by_cases hfull : bits.length % 8 = 0
  · simp [unusedClear, hfull]
  · obtain ⟨front, last, hbytes, hfront⟩ := exists_last hfull
    simp only [unusedClear, hfull, decide_false, Bool.false_or, decide_eq_true_eq]
    rw [hbytes, List.getLastD_concat]
    refine Nat.lt_pow_two_of_testBit _ fun k hk => ?_
    rw [testBit_toNat]
    exact testBit_last hbytes hfront hk

theorem ofPacked_eq_ok {bytes : Bytes} {length : Nat} {bits : Bits} :
    ofPacked bytes length = .ok bits ↔ bits.length = length ∧ bits.bytes = bytes := by
  constructor
  · intro h
    unfold ofPacked at h
    split at h
    · split at h
      · cases h
        exact ⟨rfl, rfl⟩
      · cases h
    · cases h
  · rintro ⟨rfl, rfl⟩
    rw [ofPacked, dif_pos bits.length_bytes, dif_pos bits.unusedClear_bytes]

/-! ## Single bits -/

theorem bitAt_bytes (bits : Bits) (i : Nat) :
    bitAt bits.bytes i = bits.toList.getD i false := by
  rw [toList, List.getD_eq_getElem?_getD, List.getElem?_map]
  by_cases h : i < bits.length
  · rw [List.getElem?_range h, Option.map_some, Option.getD_some]
  · rw [bits.clear_beyond i (Nat.not_lt.1 h), List.getElem?_eq_none (by simpa using h),
      Option.map_none, Option.getD_none]

theorem length_toList (bits : Bits) : bits.toList.length = bits.length := by
  rw [toList, List.length_map, List.length_range]

/-- The bits that were packed are the bits that are there. -/
theorem toList_ofList (bits : List Bool) : (ofList bits).toList = bits := by
  refine List.ext_getElem (length_toList _) fun i _ hi => ?_
  have hlt : i < 8 * ceilDiv bits.length 8 := by
    unfold ceilDiv
    omega
  simp only [toList, List.getElem_map, List.getElem_range, ofList]
  rw [bitAt_pack hlt, List.getD_eq_getElem?_getD, List.getElem?_eq_getElem hi, Option.getD_some]

theorem toList_zeros (length : Nat) : (zeros length).toList = List.replicate length false := by
  refine List.ext_getElem (by rw [length_toList, List.length_replicate]; rfl) fun i hi _ => ?_
  have hbit := bitAt_bytes (zeros length) i
  rw [List.getD_eq_getElem?_getD, List.getElem?_eq_getElem hi, Option.getD_some] at hbit
  rw [← hbit, List.getElem_replicate, zeros, bitAt, List.getD_eq_getElem?_getD,
    List.getElem?_replicate]
  split <;> exact testBit_zero _

theorem set_of_ge {bits : Bits} {i : Nat} (h : bits.length ≤ i) (value : Bool) :
    bits.set i value = (false, bits) := by
  rw [set, dif_neg (Nat.not_lt.2 h)]

theorem fst_set (bits : Bits) (i : Nat) (value : Bool) :
    (bits.set i value).1 = decide (i < bits.length) := by
  unfold set
  split
  · rename_i h
    exact (decide_eq_true h).symm
  · rename_i h
    exact (decide_eq_false h).symm

theorem bytes_set {bits : Bits} {i : Nat} (h : i < bits.length) (value : Bool) :
    (bits.set i value).2.bytes = bits.bytes.modify (i / 8) (withBit · (i % 8) value) := by
  rw [set, dif_pos h]

/-- Exactly the bit that is set changes, and out of range none does. -/
theorem toList_set (bits : Bits) (i : Nat) (value : Bool) :
    (bits.set i value).2.toList = bits.toList.set i value := by
  by_cases h : i < bits.length
  · have hlt : i / 8 < bits.bytes.length := by
      rw [bits.length_bytes]
      unfold ceilDiv
      omega
    refine List.ext_getElem ?_ fun j _ hj => ?_
    · rw [length_toList, length_set, List.length_set, length_toList]
    · simp only [toList, List.getElem_set, List.getElem_map, List.getElem_range]
      rw [bytes_set h, bitAt_modify hlt]
      simp only [eq_comm]
  · rw [set_of_ge (Nat.not_lt.1 h), List.set_eq_of_length_le]
    rw [length_toList]
    exact Nat.not_lt.1 h

theorem length_toWire (bits : Bits) : bits.toWire.length = bits.length / 8 + 1 := by
  have hlength := bits.length_bytes
  unfold ceilDiv at hlength
  unfold toWire
  split
  · rw [List.length_append, List.length_singleton]
    omega
  · rw [List.length_modify]
    omega

/-- On the wire there is one more set bit, behind the last. -/
theorem bitAt_toWire (bits : Bits) (i : Nat) :
    bitAt bits.toWire i = if i = bits.length then true else bitAt bits.bytes i := by
  have hlength := bits.length_bytes
  unfold ceilDiv at hlength
  unfold toWire
  split
  · rename_i hfull
    have hbytes : 8 * bits.bytes.length = bits.length := by omega
    by_cases hi : i < bits.length
    · rw [bitAt_append_left (by omega), if_neg (Nat.ne_of_lt hi)]
    · rw [bitAt_append_right (by omega), bitAt_one, bits.clear_beyond i (Nat.not_lt.1 hi), hbytes]
      split
      · rename_i heq
        rw [heq, Nat.sub_self, decide_eq_true rfl]
      · exact decide_eq_false (by omega)
  · exact bitAt_modify (by omega)

theorem bitAt_toWire_eq_getD (bits : Bits) (i : Nat) :
    bitAt bits.toWire i = (bits.toList ++ [true]).getD i false := by
  rw [bitAt_toWire, List.getD_eq_getElem?_getD, List.getElem?_append, length_toList]
  split
  · rename_i hi
    rw [hi, if_neg (Nat.lt_irrefl _), Nat.sub_self, List.getElem?_cons_zero, Option.getD_some]
  · rename_i hi
    split
    · rw [bitAt_bytes, List.getD_eq_getElem?_getD]
    · rename_i hlt
      have hpos : i - bits.length ≠ 0 := by omega
      rw [bits.clear_beyond i (Nat.not_lt.1 hlt), List.getElem?_singleton, if_neg hpos,
        Option.getD_none]

/-! ## Wire form -/

/-- A bitlist on the wire: the sentinel is the highest bit of the last byte, it stands behind the
    last bit, and without it the packed bytes are left. -/
theorem toWire_split (bits : Bits) :
    ∃ front last, bits.toWire = front ++ [last] ∧ last ≠ 0 ∧
      8 * front.length + last.toNat.log2 = bits.length ∧
      stripSentinel front last last.toNat.log2 = bits.bytes := by
  have hlength := bits.length_bytes
  unfold ceilDiv at hlength
  by_cases hfull : bits.length % 8 = 0
  · have hlog : (1 : UInt8).toNat.log2 = 0 := rfl
    refine ⟨bits.bytes, 1, by rw [toWire, if_pos hfull], by decide, ?_, ?_⟩
    · rw [hlog]
      omega
    · rw [hlog, stripSentinel, if_pos rfl]
  · obtain ⟨front, last, hbytes, hfront⟩ := exists_last hfull
    have hclear : ∀ j, bits.length % 8 ≤ j → testBit last j = false :=
      fun _ hj => testBit_last hbytes hfront hj
    have hmod : bits.length % 8 < 8 := Nat.mod_lt _ (by decide)
    have hset : testBit (withBit last (bits.length % 8) true) (bits.length % 8) = true := by
      rw [testBit_withBit hmod, if_pos rfl]
    have hlog : (withBit last (bits.length % 8) true).toNat.log2 = bits.length % 8 := by
      refine log2_eq_of_testBit hset fun j hj => ?_
      rw [testBit_withBit hmod, if_neg (by omega), hclear j (by omega)]
    refine ⟨front, withBit last (bits.length % 8) true, ?_, ne_zero_of_testBit hset, ?_, ?_⟩
    · rw [toWire, if_neg hfull, hbytes, ← hfront]
      simp [List.modify_eq_take_cons_drop]
    · rw [hlog]
      omega
    · rw [hlog, stripSentinel, if_neg hfull, hbytes,
        withBit_withBit hmod (hclear _ (Nat.le_refl _))]

/-- Bits that were parsed from a byte string have it as their wire form. -/
theorem toWire_stripSentinel {bits : Bits} {front : Bytes} {last : UInt8} (hlast : last ≠ 0)
    (hlength : bits.length = 8 * front.length + last.toNat.log2)
    (hbytes : bits.bytes = stripSentinel front last last.toNat.log2) :
    bits.toWire = front ++ [last] := by
  have hlog : last.toNat.log2 < 8 := log2_lt_eight
  by_cases hzero : last.toNat.log2 = 0
  · have hone : last = 1 := by
      have hpos := toNat_ne_zero hlast
      have hlt : last.toNat < 2 ^ 1 := (Nat.log2_lt hpos).1 (Nat.lt_one_iff.2 hzero)
      exact UInt8.toNat_inj.1 (show last.toNat = 1 by omega)
    rw [toWire, if_pos (by omega), hbytes, stripSentinel, if_pos hzero, hone]
  · have hdiv : bits.length / 8 = front.length := by omega
    have hmod : bits.length % 8 = last.toNat.log2 := by omega
    rw [toWire, if_neg (by omega), hbytes, stripSentinel, if_neg hzero, hdiv, hmod]
    simp [List.modify_eq_take_cons_drop, withBit_withBit hlog (testBit_highest hlast)]

/-- A byte string parses as a bitlist exactly if it is the wire form of one within the maximum. -/
theorem ofWire_eq_ok {bytes : Bytes} {max : Nat} {bits : Bits} :
    ofWire bytes max = .ok bits ↔ bits.toWire = bytes ∧ bits.length ≤ max := by
  constructor
  · intro h
    rcases List.eq_nil_or_concat bytes with rfl | ⟨front, last, rfl⟩
    · cases h
    · rw [List.concat_eq_append] at h ⊢
      unfold ofWire at h
      simp only [List.getLastD_concat, List.dropLast_concat] at h
      split at h
      · cases h
      · rename_i hlast
        split at h
        · cases h
        · rename_i hmax
          cases h
          exact ⟨toWire_stripSentinel hlast rfl rfl, Nat.not_lt.1 hmax⟩
  · rintro ⟨rfl, hmax⟩
    obtain ⟨front, last, hwire, hlast, hlength, hbytes⟩ := bits.toWire_split
    unfold ofWire
    simp only [hwire, List.getLastD_concat, List.dropLast_concat]
    rw [if_neg hlast, if_neg (by omega)]
    exact congrArg Except.ok (Bits.ext hlength hbytes)

end Bits

end Ssz
