-- SUMMARY: Cutting a byte string into pieces of one size undoes concatenating them.
import Ssz.Bytes

/-!
# Pieces of byte strings

Pieces of one size that concatenate to a byte string are the ones that `pieces`
cuts it into.
-/

namespace Ssz

theorem flatten_pieces {size count : Nat} {bytes : Bytes} (h : bytes.length = size * count) :
    (pieces size count bytes).flatten = bytes := by
  induction count generalizing bytes with
  | zero => exact (List.eq_nil_of_length_eq_zero h).symm
  | succ count ih =>
    rw [Nat.mul_succ] at h
    have hrest : (bytes.drop size).length = size * count := by
      rw [List.length_drop]
      omega
    rw [pieces, List.flatten_cons, ih hrest]
    exact List.take_append_drop size bytes

theorem length_of_mem_pieces {size count : Nat} {bytes part : Bytes}
    (h : size * count ≤ bytes.length) (hpart : part ∈ pieces size count bytes) :
    part.length = size := by
  induction count generalizing bytes with
  | zero => cases hpart
  | succ count ih =>
    rw [Nat.mul_succ] at h
    rcases List.mem_cons.1 hpart with rfl | hpart
    · exact List.length_take_of_le (by omega)
    · exact ih (by rw [List.length_drop]; omega) hpart

theorem length_flatten_of_forall {size : Nat} {parts : List Bytes}
    (h : ∀ part ∈ parts, part.length = size) : parts.flatten.length = size * parts.length := by
  induction parts with
  | nil => rfl
  | cons part parts ih =>
    have hpart : part.length = size := h part List.mem_cons_self
    have hparts := ih fun other hother => h other (List.mem_cons_of_mem _ hother)
    rw [List.flatten_cons, List.length_append, List.length_cons, hpart, hparts, Nat.mul_succ]
    omega

theorem pieces_flatten {size : Nat} {parts : List Bytes} (h : ∀ part ∈ parts, part.length = size) :
    pieces size parts.length parts.flatten = parts := by
  induction parts with
  | nil => rfl
  | cons part parts ih =>
    have hpart : part.length = size := h part List.mem_cons_self
    have hparts := ih fun other hother => h other (List.mem_cons_of_mem _ hother)
    rw [List.length_cons, List.flatten_cons, pieces, ← hpart, List.take_left, List.drop_left, hpart,
      hparts]

/-- Cutting and concatenating are inverse to each other on pieces of one size. -/
theorem pieces_eq_iff {size count : Nat} {bytes : Bytes} {parts : List Bytes} :
    bytes.length = size * count ∧ pieces size count bytes = parts ↔
      parts.length = count ∧ (∀ part ∈ parts, part.length = size) ∧ parts.flatten = bytes := by
  constructor
  · rintro ⟨hlength, rfl⟩
    exact ⟨length_pieces _ _ _, fun _ => length_of_mem_pieces (Nat.le_of_eq hlength.symm),
      flatten_pieces hlength⟩
  · rintro ⟨rfl, hsize, rfl⟩
    exact ⟨length_flatten_of_forall hsize, pieces_flatten hsize⟩

/-- Piece `i` is what stands at `size * i`. -/
theorem pieces_eq_map_range (size count : Nat) (bytes : Bytes) :
    pieces size count bytes
      = (List.range count).map fun i => (bytes.drop (size * i)).take size := by
  induction count generalizing bytes with
  | zero => rfl
  | succ count ih =>
    rw [pieces, ih, List.range_succ_eq_map, List.map_cons, List.map_map]
    refine congrArg _ (List.map_congr_left fun i _ => ?_)
    rw [Function.comp_apply, List.drop_drop, Nat.mul_succ, Nat.add_comm]

/-- Filling up with zeros is reading zeros past the end. -/
theorem toList_padded (n : Nat) (bytes : Bytes) :
    (ByteVector.padded n bytes).toList = (List.range n).map fun j => bytes.getD j 0 := by
  refine List.ext_getElem ?_ fun j hj _ => ?_
  · rw [ByteVector.length_toList, List.length_map, List.length_range]
  · have hn : j < n := by rwa [ByteVector.length_toList] at hj
    simp only [ByteVector.padded, List.getElem_map, List.getElem_range]
    rw [List.getElem_append, List.getD_eq_getElem?_getD]
    split
    · rename_i hlt
      have hbytes : j < bytes.length := by
        rw [List.length_take] at hlt
        exact (Nat.lt_min.1 hlt).2
      rw [List.getElem_take, List.getElem?_eq_getElem hbytes, Option.getD_some]
    · rename_i hge
      have hbytes : bytes.length ≤ j := by
        rw [List.length_take] at hge
        omega
      rw [List.getElem_replicate, List.getElem?_eq_none hbytes, Option.getD_none]

end Ssz
