-- SUMMARY: The values of a type are the well-formed value trees of its shape, one for one.
import Mathlib.Data.Set.List
import Ssz.Proofs.Typed.Collection
import Ssz.Proofs.WellFormed
import Ssz.Ty

/-!
# Lawful schemas

A schema is lawful if it ties its type to exactly the well-formed values of its
shape. Each constructor of schemas keeps this: the lengths that a collection
carries in its type are the lengths that the check asks for, and the fields of a
record stand in the same order in the shape, in the values, and when they are read.
-/

namespace Ssz

/-! ## Accessors -/

namespace Value

theorem asBool_eq_ok {v : Value} {b : Bool} : v.asBool = .ok b ↔ .bool b = v := by
  cases v <;> simp [asBool, eq_comm]

theorem asUint_eq_ok {width : UintWidth} {v : Value} {n : BitVec width.bits} :
    v.asUint width = .ok n ↔ .uint width n = v := by
  cases v with
  | uint w m =>
    by_cases h : w = width
    · subst h
      simp [asUint, eq_comm]
    · have hne : Value.uint width n ≠ .uint w m := fun heq => h (by cases heq; rfl)
      simp [asUint, h, hne]
  | _ => simp [asUint]

theorem asBytes_eq_ok {v : Value} {contents : Bytes} :
    v.asBytes = .ok contents ↔ .bytes contents = v := by
  cases v <;> simp [asBytes, eq_comm]

theorem asBits_eq_ok {v : Value} {contents : Bits} :
    v.asBits = .ok contents ↔ .bits contents = v := by
  cases v <;> simp [asBits, eq_comm]

theorem asList_eq_ok {v : Value} {items : List Value} : v.asList = .ok items ↔ .list items = v := by
  cases v <;> simp [asList, eq_comm]

theorem asContainer_eq_ok {count : Nat} {v : Value} {fields : List Value} :
    v.asContainer count = .ok fields ↔ .container fields = v ∧ fields.length = count := by
  cases v with
  | container values =>
    simp only [asContainer, container.injEq]
    split <;> rename_i h
    · rw [Except.ok.injEq, eq_comm]
      exact ⟨fun heq => ⟨heq, heq ▸ h⟩, And.left⟩
    · simp only [reduceCtorEq, false_iff]
      rintro ⟨rfl, hcount⟩
      exact h hcount
  | _ => simp [asContainer]

end Value

/-! ## Laws -/

/-- The values of the type are rebuilt from their trees and from nothing else, and their trees are
    the well-formed values of the shape. -/
structure Schema.Lawful {α : Type} (s : Schema α) : Prop where
  ofValue_eq_ok : ∀ {v x}, s.ofValue v = .ok x ↔ s.toValue x = v
  check_eq_ok : ∀ {v}, s.shape.check v = .ok () ↔ ∃ x, s.toValue x = v

/-- The same of the fields of a record. Values beyond the last field are not looked at when a record
    is rebuilt, so there have to be as many as there are fields. -/
structure Fields.Lawful {α : Type} (f : Fields α) : Prop where
  ofValues_eq_ok : ∀ {values x}, values.length = f.shapes.length →
    (f.ofValues values = .ok x ↔ f.toValues x = values)
  check_eq_ok : ∀ {values},
    List.Forall₂ (fun field v => field.shape.check v = .ok ()) f.shapes values ↔
      ∃ x, f.toValues x = values

namespace Schema

variable {α : Type}

@[simp] theorem withinCapacity_eq_ok {β : Type} {r : Except CapacityError β} {b : β} :
    withinCapacity r = .ok b ↔ r = .ok b := by
  cases r <;> simp [withinCapacity]

/-! ## Scalars and packed contents -/

theorem lawful_bool : bool.Lawful where
  ofValue_eq_ok := Value.asBool_eq_ok
  check_eq_ok := by
    intro v
    simp only [bool, Shape.check_bool, eq_comm (a := v)]

theorem lawful_uint (width : UintWidth) : (uint width).Lawful where
  ofValue_eq_ok := Value.asUint_eq_ok
  check_eq_ok := by
    intro v
    simp only [uint, Shape.check_uint, eq_comm (a := v)]

theorem lawful_bytesOfLength (n : Nat) (expected : String) :
    (bytesOfLength n expected).Lawful where
  ofValue_eq_ok := by
    intro v x
    simp only [bytesOfLength, bind_eq_ok, Value.asBytes_eq_ok]
    constructor
    · rintro ⟨contents, rfl, hx⟩
      split at hx
      · rename_i y hy
        cases hx
        rw [ByteVector.ofList?_eq_some.1 hy]
      · cases hx
    · rintro rfl
      refine ⟨x.toList, rfl, ?_⟩
      rw [ByteVector.ofList?_eq_some.2 rfl]
      rfl
  check_eq_ok := by
    intro v
    simp only [bytesOfLength, Shape.check_byteVector]
    constructor
    · rintro ⟨contents, rfl, hlength⟩
      exact ⟨⟨contents, hlength⟩, rfl⟩
    · rintro ⟨x, rfl⟩
      exact ⟨x.toList, rfl, x.length_toList⟩

theorem lawful_byteList (n : Nat) : (byteList n).Lawful where
  ofValue_eq_ok := by
    intro v x
    simp only [byteList, bind_eq_ok, Value.asBytes_eq_ok, withinCapacity_eq_ok,
      ByteList.ofList_eq_ok]
    constructor
    · rintro ⟨contents, rfl, rfl⟩
      rfl
    · rintro rfl
      exact ⟨x.toList, rfl, rfl⟩
  check_eq_ok := by
    intro v
    simp only [byteList, Shape.check_byteList]
    constructor
    · rintro ⟨contents, rfl, hmax⟩
      exact ⟨⟨contents, hmax⟩, rfl⟩
    · rintro ⟨x, rfl⟩
      exact ⟨x.toList, rfl, x.length_le⟩

theorem lawful_bitVector (n : Nat) : (bitVector n).Lawful where
  ofValue_eq_ok := by
    intro v x
    simp only [bitVector, bind_eq_ok, Value.asBits_eq_ok, withinCapacity_eq_ok,
      BitVector.ofBits_eq_ok]
    constructor
    · rintro ⟨contents, rfl, rfl⟩
      rfl
    · rintro rfl
      exact ⟨x.bits, rfl, rfl⟩
  check_eq_ok := by
    intro v
    simp only [bitVector, Shape.check_bitVector]
    constructor
    · rintro ⟨contents, rfl, hlength⟩
      exact ⟨⟨contents, hlength⟩, rfl⟩
    · rintro ⟨x, rfl⟩
      exact ⟨x.bits, rfl, x.length_eq⟩

theorem lawful_bitList (n : Nat) : (bitList n).Lawful where
  ofValue_eq_ok := by
    intro v x
    simp only [bitList, bind_eq_ok, Value.asBits_eq_ok, withinCapacity_eq_ok, BitList.ofBits_eq_ok]
    constructor
    · rintro ⟨contents, rfl, rfl⟩
      rfl
    · rintro rfl
      exact ⟨x.bits, rfl, rfl⟩
  check_eq_ok := by
    intro v
    simp only [bitList, Shape.check_bitList]
    constructor
    · rintro ⟨contents, rfl, hmax⟩
      exact ⟨⟨contents, hmax⟩, rfl⟩
    · rintro ⟨x, rfl⟩
      exact ⟨x.bits, rfl, x.length_le⟩

/-! ## Sequences -/

variable {s : Schema α}

theorem Lawful.mapM_eq_ok (h : s.Lawful) {items : List Value} {xs : List α} :
    items.mapM s.ofValue = .ok xs ↔ xs.map s.toValue = items := by
  rw [Ssz.mapM_eq_ok, ← List.forall₂_eq_eq_eq, List.forall₂_map_left_iff]
  constructor
  · intro hitems
    exact hitems.flip.imp fun _ _ hitem => h.ofValue_eq_ok.1 hitem
  · intro hitems
    exact hitems.flip.imp fun _ _ hitem => h.ofValue_eq_ok.2 hitem

theorem Lawful.forall_check_iff (h : s.Lawful) {items : List Value} :
    (∀ item ∈ items, s.shape.check item = .ok ()) ↔ ∃ xs : List α, xs.map s.toValue = items := by
  have hrange : (∃ xs : List α, xs.map s.toValue = items) ↔
      items ∈ Set.range (List.map s.toValue) := Iff.rfl
  rw [hrange, Set.range_list_map]
  exact forall₂_congr fun item _ => h.check_eq_ok

theorem Lawful.vector (h : s.Lawful) (n : Nat) : (s.vector n).Lawful where
  ofValue_eq_ok := by
    intro v x
    simp only [Schema.vector, bind_eq_ok, Value.asList_eq_ok, h.mapM_eq_ok, withinCapacity_eq_ok,
      FixedList.ofList_eq_ok]
    constructor
    · rintro ⟨_, rfl, _, rfl, rfl⟩
      rfl
    · rintro rfl
      exact ⟨_, rfl, x.toList, rfl, rfl⟩
  check_eq_ok := by
    intro v
    simp only [Schema.vector, Shape.check_vector, h.forall_check_iff]
    constructor
    · rintro ⟨_, rfl, hlength, xs, rfl⟩
      rw [List.length_map] at hlength
      exact ⟨⟨xs, hlength⟩, rfl⟩
    · rintro ⟨x, rfl⟩
      exact ⟨_, rfl, by rw [List.length_map, x.length_eq], x.toList, rfl⟩

theorem Lawful.list (h : s.Lawful) (n : Nat) : (s.list n).Lawful where
  ofValue_eq_ok := by
    intro v x
    simp only [Schema.list, bind_eq_ok, Value.asList_eq_ok, h.mapM_eq_ok, withinCapacity_eq_ok,
      BoundedList.ofList_eq_ok]
    constructor
    · rintro ⟨_, rfl, _, rfl, rfl⟩
      rfl
    · rintro rfl
      exact ⟨_, rfl, x.toList, rfl, rfl⟩
  check_eq_ok := by
    intro v
    simp only [Schema.list, Shape.check_list, h.forall_check_iff]
    constructor
    · rintro ⟨_, rfl, hmax, xs, rfl⟩
      rw [List.length_map] at hmax
      exact ⟨⟨xs, hmax⟩, rfl⟩
    · rintro ⟨x, rfl⟩
      exact ⟨_, rfl, by rw [List.length_map]; exact x.length_le, x.toList, rfl⟩

end Schema

/-! ## Records -/

namespace Fields

variable {α β : Type}

theorem lawful_nil : nil.Lawful where
  ofValues_eq_ok := by
    intro values x hlength
    rw [List.length_eq_zero_iff.1 hlength]
    exact iff_of_true rfl rfl
  check_eq_ok := by simp [nil, eq_comm]

theorem Lawful.cons {name label : String} {s : Schema α} {rest : Fields β} (hs : s.Lawful)
    (hrest : rest.Lawful) : (Fields.cons name label s rest).Lawful where
  ofValues_eq_ok := by
    intro values x hlength
    cases values with
    | nil => cases hlength
    | cons v values =>
      have htail := Nat.succ.inj hlength
      simp only [Fields.cons, Value.nextField, bind_eq_ok, pure_eq_ok, Except.ok.injEq,
        exists_eq_left', hs.ofValue_eq_ok, hrest.ofValues_eq_ok htail, List.cons.injEq]
      constructor
      · rintro ⟨a, rfl, b, rfl, rfl⟩
        exact ⟨rfl, rfl⟩
      · rintro ⟨rfl, rfl⟩
        exact ⟨x.1, rfl, x.2, rfl, rfl⟩
  check_eq_ok := by
    intro values
    simp only [Fields.cons, List.forall₂_cons_left_iff, hs.check_eq_ok, hrest.check_eq_ok]
    constructor
    · rintro ⟨_, _, ⟨a, rfl⟩, ⟨b, rfl⟩, rfl⟩
      exact ⟨(a, b), rfl⟩
    · rintro ⟨x, rfl⟩
      exact ⟨_, _, ⟨x.1, rfl⟩, ⟨x.2, rfl⟩, rfl⟩

theorem Lawful.length_toValues {f : Fields α} (h : f.Lawful) (x : α) :
    (f.toValues x).length = f.shapes.length :=
  (h.check_eq_ok.2 ⟨x, rfl⟩).length_eq.symm

theorem Lawful.record {f : Fields α} (h : f.Lawful) (name : String) :
    (Schema.record name f).Lawful where
  ofValue_eq_ok := by
    intro v x
    simp only [Schema.record, bind_eq_ok, Value.asContainer_eq_ok]
    constructor
    · rintro ⟨values, ⟨rfl, hlength⟩, hx⟩
      rw [(h.ofValues_eq_ok hlength).1 hx]
    · rintro rfl
      have hlength := h.length_toValues x
      exact ⟨_, ⟨rfl, hlength⟩, (h.ofValues_eq_ok hlength).2 rfl⟩
  check_eq_ok := by
    intro v
    simp only [Schema.record, Shape.check_container, h.check_eq_ok]
    constructor
    · rintro ⟨_, rfl, x, rfl⟩
      exact ⟨x, rfl⟩
    · rintro ⟨x, rfl⟩
      exact ⟨_, rfl, x, rfl⟩

end Fields

/-! ## Types -/

namespace Ty

@[induction_eliminator] theorem induction {motive : Ty → Prop}
    (bool : motive .bool) (uint : ∀ width, motive (.uint width))
    (byteArray : ∀ length, motive (.byteArray length))
    (fixedBytes : ∀ name length, motive (.fixedBytes name length))
    (byteList : ∀ max, motive (.byteList max))
    (bitVector : ∀ length, motive (.bitVector length))
    (bitList : ∀ max, motive (.bitList max))
    (vector : ∀ element length, motive element → motive (.vector element length))
    (list : ∀ element max, motive element → motive (.list element max))
    (record : ∀ name fields, (∀ field ∈ fields, motive field.shape) →
      motive (.record name fields)) (t : Ty) : motive t := by
  refine @Ty.rec motive (fun fields => ∀ field ∈ fields, motive field.shape)
    (fun field => motive field.shape) bool uint byteArray fixedBytes byteList bitVector bitList
    vector list record ?_ ?_ ?_ t
  · intro field hfield
    cases hfield
  · intro field fields hfield hfields other hother
    rcases List.mem_cons.1 hother with rfl | hother
    · exact hfield
    · exact hfields other hother
  · intro _ _ t ht
    exact ht

theorem lawful_fieldSchemas {fields : List (Field Ty)}
    (h : ∀ field ∈ fields, field.shape.schema.Lawful) : (fieldSchemas fields).Lawful := by
  induction fields with
  | nil => exact Fields.lawful_nil
  | cons field fields ih =>
    have hfield := h field List.mem_cons_self
    exact Fields.Lawful.cons hfield (ih fun other hother => h other (List.mem_cons_of_mem _ hother))

theorem lawful_schema (t : Ty) : t.schema.Lawful := by
  induction t with
  | bool => exact Schema.lawful_bool
  | uint width => exact Schema.lawful_uint width
  | byteArray length => exact Schema.lawful_bytesOfLength length _
  | fixedBytes name length => exact Schema.lawful_bytesOfLength length _
  | byteList max => exact Schema.lawful_byteList max
  | bitVector length => exact Schema.lawful_bitVector length
  | bitList max => exact Schema.lawful_bitList max
  | vector element length ih => exact ih.vector length
  | list element max ih => exact ih.list max
  | record name fields ih => exact (lawful_fieldSchemas ih).record name

end Ty

end Ssz
