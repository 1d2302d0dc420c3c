-- SUMMARY: What the constructors of the bounded collections do, and exactly when they refuse.
import Ssz.Proofs.Bits
import Ssz.Typed.Collection

/-!
# Building bounded collections

A collection is built from contents exactly if their number fits its type, and then
it holds the contents as they are. For each constructor there are two laws: the
outcome in full, and what a successful outcome says.
-/

namespace Ssz

variable {α : Type} {n : Nat}

/-! ## Guarded wrappers -/

/-- A wrapper whose guard is met by whatever it holds gives back the contents it was given. -/
theorem guard_eq_ok {ε β γ : Type} {p : β → Prop} {b : β} [Decidable (p b)]
    {e : ε} {x : γ} (wrap : (b : β) → p b → γ) (contents : γ → β) (hguard : p (contents x))
    (hwrap : wrap (contents x) hguard = x) (hcontents : ∀ b h, contents (wrap b h) = b) :
    (if h : p b then .ok (wrap b h) else .error e : Except ε γ) = .ok x ↔ contents x = b := by
  constructor
  · intro h
    split at h
    · cases h
      exact hcontents b _
    · cases h
  · rintro rfl
    rw [dif_pos hguard, hwrap]

/-! ## Bytes -/

theorem ByteVector.ofList?_eq_some {bytes : Bytes} {x : ByteVector n} :
    ofList? n bytes = some x ↔ x.toList = bytes := by
  unfold ofList?
  constructor
  · intro h
    split at h
    · cases h
      rfl
    · cases h
  · rintro rfl
    rw [dif_pos x.length_toList]

theorem ByteList.ofList_eq (bytes : Bytes) :
    (ofList bytes : Except CapacityError (ByteList n))
      = if h : bytes.length ≤ n then .ok ⟨bytes, h⟩ else .error (.exceeded n bytes.length) := by
  unfold ofList checkCapacity
  by_cases h : bytes.length ≤ n
  · rw [dif_pos h, dif_pos h]
  · rw [dif_neg h, dif_neg h]

theorem ByteList.ofList_eq_ok {bytes : Bytes} {l : ByteList n} :
    ofList bytes = .ok l ↔ l.toList = bytes := by
  rw [ofList_eq]
  exact guard_eq_ok ByteList.mk ByteList.toList l.length_le rfl fun _ _ => rfl

/-! ## Bits -/

theorem BitVector.ofBits_eq (bits : Bits) :
    (ofBits bits : Except CapacityError (BitVector n))
      = if h : bits.length = n then .ok ⟨bits, h⟩ else .error (.exact n bits.length) := by
  unfold ofBits checkExact
  by_cases h : bits.length = n
  · rw [dif_pos h, dif_pos h]
  · rw [dif_neg h, dif_neg h]

theorem BitVector.ofBits_eq_ok {bits : Bits} {x : BitVector n} :
    ofBits bits = .ok x ↔ x.bits = bits := by
  rw [ofBits_eq]
  exact guard_eq_ok BitVector.mk BitVector.bits x.length_eq rfl fun _ _ => rfl

theorem BitVector.fst_set (x : BitVector n) (i : Nat) (b : Bool) :
    (x.set i b).1 = decide (i < n) := by
  rw [set, Bits.fst_set, x.length_eq]

theorem BitVector.snd_set_of_ge {x : BitVector n} {i : Nat} (h : n ≤ i) (b : Bool) :
    (x.set i b).2 = x := by
  obtain ⟨bits, rfl⟩ := x
  simp only [set, Bits.set_of_ge h]

theorem BitList.ofBits_eq (bits : Bits) :
    (ofBits bits : Except CapacityError (BitList n))
      = if h : bits.length ≤ n then .ok ⟨bits, h⟩ else .error (.exceeded n bits.length) := by
  unfold ofBits checkCapacity
  by_cases h : bits.length ≤ n
  · rw [dif_pos h, dif_pos h]
  · rw [dif_neg h, dif_neg h]

theorem BitList.ofBits_eq_ok {bits : Bits} {x : BitList n} :
    ofBits bits = .ok x ↔ x.bits = bits := by
  rw [ofBits_eq]
  exact guard_eq_ok BitList.mk BitList.bits x.length_le rfl fun _ _ => rfl

theorem BitList.fst_set (x : BitList n) (i : Nat) (b : Bool) :
    (x.set i b).1 = decide (i < x.bits.length) := by
  rw [set, Bits.fst_set]

theorem BitList.snd_set_of_ge {x : BitList n} {i : Nat} (h : x.bits.length ≤ i) (b : Bool) :
    (x.set i b).2 = x := by
  simp only [set, Bits.set_of_ge h]

/-! ## Elements -/

theorem FixedList.ofList_eq (items : List α) :
    (ofList items : Except CapacityError (FixedList α n))
      = if h : items.length = n then .ok ⟨items, h⟩ else .error (.exact n items.length) := by
  unfold ofList checkExact
  by_cases h : items.length = n
  · rw [dif_pos h, dif_pos h]
  · rw [dif_neg h, dif_neg h]

theorem FixedList.ofList_eq_ok {items : List α} {l : FixedList α n} :
    ofList items = .ok l ↔ l.toList = items := by
  rw [ofList_eq]
  exact guard_eq_ok FixedList.mk FixedList.toList l.length_eq rfl fun _ _ => rfl

theorem BoundedList.ofList_eq (items : List α) :
    (ofList items : Except CapacityError (BoundedList α n))
      = if h : items.length ≤ n then .ok ⟨items, h⟩ else .error (.exceeded n items.length) := by
  unfold ofList checkCapacity
  by_cases h : items.length ≤ n
  · rw [dif_pos h, dif_pos h]
  · rw [dif_neg h, dif_neg h]

theorem BoundedList.ofList_eq_ok {items : List α} {l : BoundedList α n} :
    ofList items = .ok l ↔ l.toList = items := by
  rw [ofList_eq]
  exact guard_eq_ok BoundedList.mk BoundedList.toList l.length_le rfl fun _ _ => rfl

end Ssz
