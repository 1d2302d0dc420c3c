-- SUMMARY: Packed bits behave as a list of booleans, however they were built and set.
import Mathlib.Data.List.DropRight
import Ssz.Proofs.Bits
import Ssz.Proofs.Except

/-!
# Runs on bits

Bits are built in one of four ways, and then single bits are set, any number of
times and at any places. Beside such a run stands what it does to a list of
booleans, told without bytes or masks. The law of this module is that the packed
bits show of themselves what the list shows, and nothing more: two runs end with
the same bits exactly if they end with the same list.
-/

namespace Ssz

/-! ## All bits of a byte string -/

/-- The bits of a byte string in order, those of a byte from the least significant on. -/
def bitsOf (bytes : Bytes) : List Bool := bytes.flatMap fun b => (List.range 8).map (testBit b)

theorem bitsOf_eq_map (bytes : Bytes) :
    bitsOf bytes = (List.range (8 * bytes.length)).map (bitAt bytes) := by
  induction bytes with
  | nil => rfl
  | cons b bytes ih =>
    have hfront : (List.range 8).map (testBit b) = (List.range 8).map (bitAt (b :: bytes)) := by
      refine List.map_congr_left fun i hi => ?_
      have hlt : i < 8 := List.mem_range.1 hi
      rw [← List.singleton_append, bitAt_append_left (by simpa using hlt), bitAt_singleton hlt]
    have hback : (List.range (8 * bytes.length)).map (bitAt bytes)
        = ((List.range (8 * bytes.length)).map (8 + ·)).map (bitAt (b :: bytes)) := by
      rw [List.map_map]
      refine List.map_congr_left fun i _ => ?_
      rw [Function.comp_apply, ← List.singleton_append, bitAt_append_right (by simp)]
      simp
    rw [bitsOf, List.flatMap_cons, ← bitsOf, ih, hfront, hback, List.length_cons, Nat.mul_succ,
      Nat.add_comm, List.range_add, List.map_append]

/-- The set bits can be counted byte by byte. -/
theorem count_bitsOf (bytes : Bytes) :
    (bitsOf bytes).count true = bytes.foldr (fun b count => popcount b + count) 0 := by
  induction bytes with
  | nil => rfl
  | cons b bytes ih =>
    have hbyte : ((List.range 8).map (testBit b)).count true = popcount b := by
      rw [List.count, List.countP_map, popcount]
      simp [Function.comp_def]
    rw [bitsOf, List.flatMap_cons, ← bitsOf, List.count_append, hbyte, ih, List.foldr_cons]

namespace Bits

/-- Packed bytes are the bits, with clear bits up to the end of the last byte. -/
theorem bitsOf_bytes (bits : Bits) :
    ∃ padding, bitsOf bits.bytes = bits.toList ++ List.replicate padding false := by
  have hlength := bits.length_bytes
  unfold ceilDiv at hlength
  obtain ⟨padding, hpadding⟩ : ∃ padding, 8 * bits.bytes.length = bits.length + padding :=
    Nat.exists_eq_add_of_le (by omega)
  refine ⟨padding, ?_⟩
  rw [bitsOf_eq_map, hpadding, List.range_add, List.map_append, List.map_map]
  refine congrArg _ (List.eq_replicate_iff.2 ⟨by simp, fun b hb => ?_⟩)
  obtain ⟨i, -, rfl⟩ := List.mem_map.1 hb
  exact bits.clear_beyond _ (Nat.le_add_right _ _)

/-- On the wire the bits are followed by a set bit, and that by clear ones. -/
theorem bitsOf_toWire (bits : Bits) :
    ∃ padding, bitsOf bits.toWire = bits.toList ++ true :: List.replicate padding false := by
  obtain ⟨padding, hpadding⟩ : ∃ padding, 8 * bits.toWire.length = bits.length + (1 + padding) := by
    rw [length_toWire]
    exact ⟨8 * (bits.length / 8 + 1) - bits.length - 1, by omega⟩
  refine ⟨padding, ?_⟩
  have hfront : (List.range bits.length).map (bitAt bits.toWire) = bits.toList := by
    refine List.map_congr_left fun i hi => ?_
    rw [bitAt_toWire, if_neg (Nat.ne_of_lt (List.mem_range.1 hi))]
  rw [bitsOf_eq_map, hpadding, List.range_add, List.map_append, hfront, Nat.add_comm,
    List.range_succ_eq_map, List.map_cons, List.map_cons, Nat.add_zero, bitAt_toWire, if_pos rfl]
  refine congrArg (bits.toList ++ true :: ·) (List.eq_replicate_iff.2 ⟨by simp, fun b hb => ?_⟩)
  simp only [List.mem_map] at hb
  obtain ⟨_, ⟨_, ⟨i, -, rfl⟩, rfl⟩, rfl⟩ := hb
  rw [bitAt_toWire, if_neg (by omega)]
  exact bits.clear_beyond _ (by omega)

/-! ## Runs -/

/-- Bits that are built, and then set at one place after the other. -/
inductive Run where
  | zeros (length : Nat)
  | ofList (bits : List Bool)
  | ofPacked (bytes : Bytes) (length : Nat)
  | ofWire (bytes : Bytes) (max : Nat)
  | andSet (run : Run) (i : Nat) (value : Bool)

/-- The bits that a run ends with, unless they cannot be built. -/
def Run.result : Run → Except Malformed Bits
  | .zeros length => .ok (Bits.zeros length)
  | .ofList bits => .ok (Bits.ofList bits)
  | .ofPacked bytes length => Bits.ofPacked bytes length
  | .ofWire bytes max => Bits.ofWire bytes max
  | .andSet run i value => do return ((← run.result).set i value).2

/-- The booleans that a run ends with. On the wire they end before the last set bit. Setting past
    the end changes nothing. -/
def Run.model : Run → List Bool
  | .zeros length => List.replicate length false
  | .ofList bits => bits
  | .ofPacked bytes length => (bitsOf bytes).take length
  | .ofWire bytes _ => ((bitsOf bytes).rdropWhile (!·)).dropLast
  | .andSet run i value => run.model.set i value

theorem toList_of_ofPacked {bytes : Bytes} {length : Nat} {bits : Bits}
    (h : ofPacked bytes length = .ok bits) : bits.toList = (bitsOf bytes).take length := by
  obtain ⟨rfl, rfl⟩ := ofPacked_eq_ok.1 h
  obtain ⟨padding, hbits⟩ := bits.bitsOf_bytes
  rw [hbits, ← bits.length_toList, List.take_left]

theorem toList_of_ofWire {bytes : Bytes} {max : Nat} {bits : Bits}
    (h : ofWire bytes max = .ok bits) :
    bits.toList = ((bitsOf bytes).rdropWhile (!·)).dropLast := by
  obtain ⟨rfl, -⟩ := ofWire_eq_ok.1 h
  obtain ⟨padding, hbits⟩ := bits.bitsOf_toWire
  have hclear : ∀ b ∈ List.replicate padding false, (!b) = true := by
    intro b hb
    rw [List.eq_of_mem_replicate hb]
    rfl
  rw [hbits, List.rdropWhile, List.reverse_append, List.reverse_cons, List.reverse_replicate,
    List.append_assoc, List.dropWhile_append_of_pos hclear, List.singleton_append,
    List.dropWhile_cons_of_neg (by decide), List.reverse_cons, List.reverse_reverse,
    List.dropLast_concat]

/-- The bits follow the list through every step. -/
theorem Run.toList_result {run : Run} {bits : Bits} (h : run.result = .ok bits) :
    bits.toList = run.model := by
  induction run generalizing bits with
  | zeros length =>
    cases h
    exact toList_zeros length
  | ofList list =>
    cases h
    exact toList_ofList list
  | ofPacked bytes length => exact toList_of_ofPacked h
  | ofWire bytes max => exact toList_of_ofWire h
  | andSet run i value ih =>
    obtain ⟨before, hbefore, hbits⟩ := bind_eq_ok.1 h
    cases hbits
    rw [toList_set, ih hbefore, Run.model]

/-! ## What bits show -/

/-- All that bits show of themselves is as for a list of booleans. -/
structure Shows (bits : Bits) (model : List Bool) : Prop where
  length : bits.length = model.length
  length_bytes : bits.bytes.length = ceilDiv model.length 8
  /-- A last byte that is not full is clear behind the last bit. -/
  clear : model.length % 8 ≠ 0 → ∀ last ∈ bits.bytes.getLast?, ∀ k, model.length % 8 ≤ k →
    testBit last k = false
  get : ∀ i, bits.get? i = model[i]?
  inRange : ∀ i value, (bits.set i value).1 = decide (i < model.length)
  get_set : ∀ i value j, (bits.set i value).2.get? j
    = if j = i ∧ i < model.length then some value else model[j]?
  set_of_ge : ∀ i value, model.length ≤ i → (bits.set i value).2 = bits
  countOnes : bits.countOnes = model.count true
  repacked : ofPacked bits.bytes model.length = .ok bits

theorem get?_eq (bits : Bits) (i : Nat) : bits.get? i = bits.toList[i]? := by
  unfold get? toList
  split
  · rename_i h
    rw [List.getElem?_map, List.getElem?_range h, Option.map_some]
  · rename_i h
    rw [List.getElem?_eq_none]
    rw [List.length_map, List.length_range]
    exact Nat.not_lt.1 h

theorem countOnes_eq_count (bits : Bits) : bits.countOnes = bits.toList.count true := by
  obtain ⟨padding, hbits⟩ := bits.bitsOf_bytes
  rw [countOnes, ← count_bitsOf, hbits, List.count_append,
    List.count_eq_zero.2 fun h => Bool.noConfusion (List.eq_of_mem_replicate h), Nat.add_zero]

theorem toList_inj {a b : Bits} : a.toList = b.toList ↔ a = b := by
  constructor
  · intro h
    have hlength : a.length = b.length := by
      rw [← a.length_toList, ← b.length_toList, h]
    refine Bits.ext hlength (bytes_ext ?_ fun i _ => ?_)
    · rw [a.length_bytes, b.length_bytes, hlength]
    · rw [a.bitAt_bytes, b.bitAt_bytes, h]
  · rintro rfl
    rfl

/-- Packing the bits that are there gives the same bits. -/
theorem ofList_toList (bits : Bits) : ofList bits.toList = bits :=
  toList_inj.1 (toList_ofList _)

theorem shows_toList (bits : Bits) : Shows bits bits.toList := by
  constructor
  case length => exact bits.length_toList.symm
  case length_bytes =>
    rw [length_toList]
    exact bits.length_bytes
  case clear =>
    rw [length_toList]
    intro hpartial last hlast k hk
    obtain ⟨front, other, hbytes, hfront⟩ := exists_last hpartial
    rw [hbytes, List.getLast?_concat] at hlast
    cases hlast
    exact testBit_last hbytes hfront hk
  case get => exact bits.get?_eq
  case inRange =>
    rw [length_toList]
    exact bits.fst_set
  case get_set =>
    intro i value j
    rw [get?_eq, toList_set, List.getElem?_set]
    grind
  case set_of_ge =>
    intro i value hi
    rw [length_toList] at hi
    rw [Bits.set_of_ge hi]
  case countOnes => exact bits.countOnes_eq_count
  case repacked => exact ofPacked_eq_ok.2 ⟨bits.length_toList.symm, rfl⟩

/-- Whatever a run ends with shows the list that it ends with, and shows it in full: another run
    ends with the same bits exactly if it ends with the same list. -/
theorem shows_of_run {run : Run} {bits : Bits} (h : run.result = .ok bits) :
    Shows bits run.model ∧
      ∀ other otherBits, Run.result other = .ok otherBits →
        (bits = otherBits ↔ run.model = other.model) := by
  constructor
  · rw [← Run.toList_result h]
    exact shows_toList bits
  · intro other otherBits hother
    rw [← Run.toList_result h, ← Run.toList_result hother, toList_inj]

/-- Nine bits from the wire, of which one is set, and then one that is not there. Packing the list
    gives the same bits. -/
theorem shows_of_run_wire :
    let run : Run := ((Run.ofWire [0x25, 0x02] 12).andSet 1 true).andSet 40 true
    let model : List Bool := [true, true, true, false, false, true, false, false, false]
    run.result = .ok (Bits.ofList model) ∧ Shows (Bits.ofList model) model ∧
      (Bits.ofList model).bytes = [0x27, 0] := by
  intro run model
  have hresult : run.result = .ok (Bits.ofList model) := by decide
  have hmodel : run.model = model := by decide
  have hshows := (shows_of_run hresult).1
  rw [hmodel] at hshows
  exact ⟨hresult, hshows, by decide⟩

end Bits

end Ssz
