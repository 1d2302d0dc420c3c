-- SUMMARY: With sizes that fit a word, reading by ranges gives the same, and no range is missing.
import Mathlib.Algebra.Ring.Nat
import Ssz.Proofs.Wire.Parts
import Ssz.Wire.Ranged

/-!
# Sizes that fit

Words only matter where a size is computed: the product of a vector and the prefix
of a record. If these fit, every size is the exact one. The places in a prefix then
lie within the input once its length has been checked, and the offsets are checked
one by one, so each range that is asked for is there.
-/

namespace Ssz

theorem word_eq {n : Nat} (h : n < wordBound) : word n = n := Nat.mod_eq_of_lt h

namespace Ranged

variable {ε α β : Type}

/-! ## Runs that take no ranges -/

@[simp] theorem ofExcept_inj {x y : Except ε α} : ofExcept x = ofExcept y ↔ x = y :=
  Option.some_inj

theorem ofExcept_ne_missing (x : Except ε α) : ofExcept x ≠ missing := Option.some_ne_none x

theorem ofExcept_ok_bind (a : α) (f : α → Ranged ε β) : ofExcept (.ok a) >>= f = f a := rfl

theorem pure_eq_ok {a b : α} : (pure a : Ranged ε α) = ofExcept (.ok b) ↔ a = b := by
  change ofExcept (.ok a) = ofExcept (.ok b) ↔ a = b
  rw [ofExcept_inj, Except.ok.injEq]

theorem bind_eq_ok {x : Ranged ε α} {f : α → Ranged ε β} {b : β} :
    x >>= f = ofExcept (.ok b) ↔ ∃ a, x = ofExcept (.ok a) ∧ f a = ofExcept (.ok b) := by
  constructor
  · intro h
    obtain _ | _ | a := x
    · cases h
    · cases h
    · exact ⟨a, rfl, h⟩
  · rintro ⟨a, rfl, h⟩
    exact h

theorem malformed_eq_ok {x : Except Malformed α} {a : α} :
    (ofExcept x).malformed = ofExcept (.ok a) ↔ x = .ok a :=
  ofExcept_inj.trans Ssz.malformed_eq_ok

/-- A run goes on as one that takes no ranges, if what comes after its first step does. -/
theorem ofExcept_bind {x : Except ε α} {f : α → Ranged ε β} {g : α → Except ε β}
    (h : ∀ a, x = .ok a → f a = ofExcept (g a)) : ofExcept x >>= f = ofExcept (x >>= g) := by
  cases x with
  | ok a => exact h a rfl
  | error e => rfl

end Ranged

/-! ## Splitting -/

namespace OffsetTable

theorem slotsLength_eq_sum (slots : List Slot) : slotsLength slots = (slots.map Slot.size).sum := by
  induction slots with
  | nil => rfl
  | cons slot slots ih => rw [slotsLength_cons, List.map_cons, List.sum_cons, ih]

theorem read_place (bytes : Bytes) (position size : Nat) :
    Span.read bytes ⟨position, position + size⟩ = (bytes.drop position).take size := by
  rw [Span.read, Nat.add_sub_cancel_left]

namespace Ranged

open Ssz.Ranged

variable {α : Type} {bytes : Bytes} {slots : List Slot}

theorem prefixLength_eq (h : slotsLength slots < wordBound) :
    prefixLength slots = slotsLength slots := by
  induction slots with
  | nil => rfl
  | cons slot slots ih =>
    rw [slotsLength_cons] at h ⊢
    show word (slot.size + prefixLength slots) = _
    rw [ih (Nat.lt_of_le_of_lt (Nat.le_add_left _ _) h), word_eq h]

theorem read_bind {ε : Type} {span : Span} (h : span.Within bytes.length)
    (f : Bytes → Ranged ε α) : read bytes span >>= f = f (span.read bytes) := by
  rw [read, if_pos h, pure_bind]

/-- A prefix that the input has is read from ranges that the input has. -/
theorem readHeads_eq {prefixLength position : Nat} {previous : Option Nat}
    (hword : position + slotsLength slots < wordBound)
    (h : position + slotsLength slots ≤ bytes.length) :
    readHeads bytes prefixLength position slots previous
      = ofExcept (OffsetTable.readHeads bytes.length prefixLength slots (bytes.drop position)
          previous) := by
  induction slots generalizing position previous with
  | nil => rfl
  | cons slot slots ih =>
    rw [slotsLength_cons, ← Nat.add_assoc] at hword h
    have hnext : word (position + slot.size) = position + slot.size :=
      word_eq (Nat.lt_of_le_of_lt (Nat.le_add_right _ _) hword)
    have hplace : Span.Within bytes.length ⟨position, position + slot.size⟩ :=
      ⟨Nat.le_add_right _ _, Nat.le_trans (Nat.le_add_right _ _) h⟩
    cases slot with
    | some size =>
      rw [size_some] at hword h hnext hplace
      simp only [readHeads, hnext]
      rw [read_bind hplace, read_place, ih hword h, OffsetTable.readHeads, List.drop_drop]
      exact ofExcept_bind fun _ _ => rfl
    | none =>
      rw [size_none] at hword h hnext hplace
      have hoffset : offsetAt bytes position
          = .ok (ofLittleEndian ((bytes.drop position).take bytesPerOffset)) := by
        simp only [offsetAt, hnext, if_pos hplace, read_place]
      simp only [readHeads, hnext, hoffset]
      rw [ofExcept_ok_bind, OffsetTable.readHeads, List.drop_drop]
      refine ofExcept_bind fun _ _ => ?_
      rw [ih hword h]
      exact ofExcept_bind fun _ _ => rfl

theorem cut_eq {prefixLength : Nat} {rest : Bytes} {previous : Option Nat} {heads : List Head}
    (h : OffsetTable.readHeads bytes.length prefixLength slots rest previous = .ok heads) :
    cut bytes heads = ofExcept (.ok (OffsetTable.cut bytes heads)) := by
  induction slots generalizing rest previous heads with
  | nil =>
    cases h
    rfl
  | cons slot slots ih =>
    cases slot with
    | some size =>
      obtain ⟨tail, htail, rfl⟩ := readHeads_fixed.1 h
      rw [cut, ih htail]
      rfl
    | none =>
      have hlength := (nextOffset_bounds h).2
      obtain ⟨-, tail, htail, rfl⟩ := readHeads_variable.1 h
      obtain ⟨horder, hnext⟩ := nextOffset_bounds htail
      rw [cut, read_bind ⟨horder _ rfl hlength, hnext⟩, ih htail]
      rfl

/-- No run asks for a range that is missing, if the prefix fits a word. -/
theorem split_eq (h : slotsLength slots < wordBound) (bytes : Bytes) :
    split slots bytes = ofExcept (OffsetTable.split slots bytes) := by
  unfold split OffsetTable.split
  rw [prefixLength_eq h]
  dsimp only
  change _ = ofExcept (if bytes.length < slotsLength slots then _ else _)
  split
  · rfl
  · rename_i hfront
    have hle : 0 + slotsLength slots ≤ bytes.length := by
      rw [Nat.zero_add]
      exact Nat.not_lt.1 hfront
    rw [← Nat.zero_add (slotsLength slots)] at h
    rw [readHeads_eq h hle, List.drop_zero]
    refine ofExcept_bind fun heads hheads => ?_
    change _ = ofExcept
      (if slots.all Option.isSome && bytes.length ≠ slotsLength slots then _ else _)
    split
    · rfl
    · exact cut_eq hheads

end Ranged

end OffsetTable

/-! ## Shapes -/

namespace Shape

/-- The sizes that are computed for the shape fit a word, at every depth: the size of a vector, or
    of its offsets, and the prefix of a record. -/
inductive Fits : Shape → Prop
  | bool : Fits .bool
  | uint {width} : Fits (.uint width)
  | byteVector {length} : Fits (.byteVector length)
  | byteList {max} : Fits (.byteList max)
  | bitVector {length} : Fits (.bitVector length)
  | bitList {max} : Fits (.bitList max)
  | vector {element length} : Fits element → element.prefixSize * length < wordBound →
      Fits (.vector element length)
  | list {element max} : Fits element → Fits (.list element max)
  | container {name fields} : (∀ field ∈ fields, Fits field.shape) →
      ((Field.shapes fields).map prefixSize).sum < wordBound → Fits (.container name fields)
  | union {alternatives} : (∀ shape, some shape ∈ alternatives → Fits shape) →
      Fits (.union alternatives)

theorem vectorParts_eq {size length : Nat} {bytes : Bytes} (h : bytes.length = size * length) :
    vectorParts size length bytes = pieces size length bytes := by
  unfold vectorParts
  split
  · rfl
  · rename_i hsize
    have hpos : 0 < size := Nat.pos_of_ne_zero hsize
    have hcount : ceilDiv bytes.length size = length := by
      rw [ceilDiv, h, Nat.add_sub_assoc hpos, Nat.mul_add_div hpos,
        Nat.div_eq_of_lt (Nat.sub_lt hpos Nat.one_pos), Nat.add_zero]
    rw [hcount]

end Shape

end Ssz
