-- SUMMARY: The closed form of packed chunks and of the chunks that are mixed in.
import Ssz.Merkle.Root
import Ssz.Proofs.Bytes
import Ssz.Proofs.Wire.Layout

/-!
# Leaves

The leaves over a byte string are its 32-byte pieces, where what lies past the end
reads as zero. A number is mixed in as the chunk of its 32 digits; the hasher
writes only as many of them as can be non-zero.
-/

namespace Ssz

/-- The 32-byte pieces of a byte string. -/
def leaves (bytes : Bytes) : List Chunk :=
  (List.range ((bytes.length + 31) / 32)).map fun i =>
    ⟨(List.range 32).map fun j => bytes.getD (32 * i + j) 0, by simp [bytesPerChunk]⟩

/-- A number as a chunk. -/
def numberChunk (n : Nat) : Chunk := ⟨digits 32 n, by simp [digits, bytesPerChunk]⟩

theorem length_leaves (bytes : Bytes) : (leaves bytes).length = (bytes.length + 31) / 32 := by
  rw [leaves, List.length_map, List.length_range]

theorem packChunks_eq_leaves (bytes : Bytes) : packChunks bytes = leaves bytes := by
  rw [packChunks, pieces_eq_map_range, List.map_map]
  refine List.map_congr_left fun i _ => ByteVector.ext ?_
  rw [Function.comp_apply, toList_padded]
  show _ = (List.range bytesPerChunk).map fun j => bytes.getD (32 * i + j) 0
  refine List.map_congr_left fun j hj => ?_
  have hj : j < bytesPerChunk := List.mem_range.1 hj
  rw [List.getD_eq_getElem?_getD, List.getD_eq_getElem?_getD, List.getElem?_take_of_lt hj,
    List.getElem?_drop]
  rfl

/-- A byte string of at most 32 bytes, but not empty, is one leaf. -/
theorem leaves_eq_singleton {bytes : Bytes} (hne : bytes ≠ [])
    (hle : bytes.length ≤ bytesPerChunk) : leaves bytes = [.padded _ bytes] := by
  have hpos := List.length_pos_iff.2 hne
  have hcount : (bytes.length + 31) / 32 = 1 := by
    unfold bytesPerChunk at hle
    omega
  rw [leaves, hcount, List.range_one, List.map_singleton]
  refine congrArg (fun chunk => [chunk]) (ByteVector.ext ?_)
  rw [toList_padded]
  simp only [Nat.mul_zero, Nat.zero_add]
  rfl

/-! ## Numbers -/

theorem getD_digits {width n : Nat} (h : n < 256 ^ width) (j : Nat) :
    (digits width n).getD j 0 = UInt8.ofNat (n / 256 ^ j % 256) := by
  rw [digits, List.getD_eq_getElem?_getD, List.getElem?_map]
  by_cases hj : j < width
  · rw [List.getElem?_range hj, Option.map_some, Option.getD_some]
  · have hpow : n < 256 ^ j := lt_of_lt_of_le h (Nat.pow_le_pow_right (by decide) (by omega))
    rw [List.getElem?_eq_none (by rw [List.length_range]; omega), Nat.div_eq_of_lt hpow]
    rfl

/-- Digits that are left out are zero. -/
theorem padded_littleEndian {width n : Nat} (h : n < 256 ^ width) :
    ByteVector.padded bytesPerChunk (littleEndian width n) = numberChunk n := by
  apply ByteVector.ext
  rw [toList_padded, littleEndian_eq_digits]
  exact List.map_congr_left fun j _ => getD_digits h j

theorem mixInLength_eq {length : Nat} (root : Chunk) (h : length ≤ maxCount) :
    mixInLength root length = hashPair root (numberChunk length) := by
  have hlt : length < 256 ^ 8 := Nat.lt_of_le_of_lt h (by decide)
  rw [mixInLength, padded_littleEndian hlt]

theorem mixInSelector_eq (root : Chunk) (selector : UInt8) :
    mixInSelector root selector = hashPair root (numberChunk selector.toNat) := by
  have hbyte : littleEndian 1 selector.toNat = [selector] := by
    simp [littleEndian, Nat.mod_eq_of_lt selector.toNat_lt]
  have hlt : selector.toNat < 256 ^ 1 := selector.toNat_lt
  rw [mixInSelector, ← padded_littleEndian hlt, hbyte]

end Ssz
