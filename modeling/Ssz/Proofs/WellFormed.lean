-- SUMMARY: The form of a well-formed value, shape by shape.
import Ssz.Proofs.Except
import Ssz.WellFormed

/-!
# The form of well-formed values

For each shape, `check_…` says what the values are that pass the check. The
later proofs take a well-formed value apart with these laws and do not look
into `Shape.check` again.
-/

namespace Ssz

theorem checkMax_eq_ok {name : String} {max actual : Nat} :
    checkMax name max actual = .ok () ↔ actual ≤ max := by
  unfold checkMax
  split <;> simp_all

theorem checkLength_eq_ok {name : String} {expected actual : Nat} :
    checkLength name expected actual = .ok () ↔ actual = expected := by
  unfold checkLength
  split <;> simp_all

namespace Shape

attribute [local simp] check checkFields checkChosen

/-! ## Scalars and packed contents -/

theorem check_bool {v : Value} : check .bool v = .ok () ↔ ∃ b, v = .bool b := by
  cases v <;> simp

theorem check_uint {width : UintWidth} {v : Value} :
    check (.uint width) v = .ok () ↔ ∃ n, v = .uint width n := by
  cases v with
  | uint w n =>
    by_cases h : w = width
    · subst h
      simp
    · have hne : ∀ m, Value.uint w n ≠ .uint width m := fun m heq => h (by cases heq; rfl)
      simp [h, hne]
  | _ => simp

theorem check_byteVector {length : Nat} {v : Value} :
    check (.byteVector length) v = .ok () ↔
      ∃ contents, v = .bytes contents ∧ contents.length = length := by
  cases v <;> simp [checkLength_eq_ok]

theorem check_byteList {max : Nat} {v : Value} :
    check (.byteList max) v = .ok () ↔
      ∃ contents, v = .bytes contents ∧ contents.length ≤ max := by
  cases v <;> simp [checkMax_eq_ok]

theorem check_bitVector {length : Nat} {v : Value} :
    check (.bitVector length) v = .ok () ↔
      ∃ contents, v = .bits contents ∧ contents.length = length := by
  cases v <;> simp [checkLength_eq_ok]

theorem check_bitList {max : Nat} {v : Value} :
    check (.bitList max) v = .ok () ↔
      ∃ contents, v = .bits contents ∧ contents.length ≤ max := by
  cases v <;> simp [checkMax_eq_ok]

/-! ## Sequences -/

theorem check_vector {element : Shape} {length : Nat} {v : Value} :
    check (.vector element length) v = .ok () ↔
      ∃ items, v = .list items ∧ items.length = length ∧
        ∀ item ∈ items, element.check item = .ok () := by
  cases v with
  | list items => simp [checkLength_eq_ok, -List.forM_eq_forM, forM_eq_ok]
  | _ => simp

theorem check_list {element : Shape} {max : Nat} {v : Value} :
    check (.list element max) v = .ok () ↔
      ∃ items, v = .list items ∧ items.length ≤ max ∧
        ∀ item ∈ items, element.check item = .ok () := by
  cases v with
  | list items => simp [checkMax_eq_ok, -List.forM_eq_forM, forM_eq_ok]
  | _ => simp

/-! ## Records and unions -/

theorem checkFields_eq_ok {fields : List (Field Shape)} {values : List Value}
    (hlength : values.length = fields.length) :
    checkFields fields values = .ok () ↔
      List.Forall₂ (fun field v => field.shape.check v = .ok ()) fields values := by
  induction fields generalizing values with
  | nil =>
    rw [List.length_nil, List.length_eq_zero_iff] at hlength
    subst hlength
    simp
  | cons field fields ih =>
    cases values with
    | nil => cases hlength
    | cons v values => simp [ih (Nat.succ.inj hlength)]

theorem check_container {name : String} {fields : List (Field Shape)} {v : Value} :
    check (.container name fields) v = .ok () ↔
      ∃ values, v = .container values ∧
        List.Forall₂ (fun field v => field.shape.check v = .ok ()) fields values := by
  cases v with
  | container values =>
    simp only [check, bind_eq_ok, exists_unit, checkLength_eq_ok, Value.container.injEq,
      exists_eq_left']
    constructor
    · rintro ⟨hlength, hfields⟩
      exact (checkFields_eq_ok hlength).1 hfields
    · intro hfields
      exact ⟨hfields.length_eq.symm, (checkFields_eq_ok hfields.length_eq.symm).2 hfields⟩
  | _ => simp

/-- What a union may hold at the alternative that is chosen: nothing at an empty alternative, which
    has to be the first, and otherwise a well-formed value. -/
theorem checkChosen_eq_ok {selector : UInt8} {count : Nat} {alternatives : List (Option Shape)}
    {index : Nat} {inner : Option Value} :
    checkChosen selector count alternatives index inner = .ok () ↔
      (alternatives[index]? = some none ∧ inner = none ∧ selector = 0) ∨
        ∃ shape v, alternatives[index]? = some (some shape) ∧ inner = some v ∧
          shape.check v = .ok () := by
  induction alternatives generalizing index with
  | nil => simp
  | cons choice alternatives ih =>
    cases index with
    | zero => cases choice <;> cases inner <;> simp
    | succ index => simp [ih]

theorem check_union {alternatives : List (Option Shape)} {v : Value} :
    check (.union alternatives) v = .ok () ↔
      (v = .union 0 none ∧ alternatives[0]? = some none) ∨
        ∃ selector shape inner, v = .union selector (some inner) ∧
          alternatives[selector.toNat]? = some (some shape) ∧ shape.check inner = .ok () := by
  cases v with
  | union selector inner =>
    simp only [check, checkChosen_eq_ok, Value.union.injEq]
    constructor
    · rintro (⟨hnone, rfl, rfl⟩ | ⟨shape, v, hsome, rfl, hv⟩)
      · exact .inl ⟨⟨rfl, rfl⟩, hnone⟩
      · exact .inr ⟨selector, shape, v, ⟨rfl, rfl⟩, hsome, hv⟩
    · rintro (⟨⟨rfl, rfl⟩, hnone⟩ | ⟨_, shape, v, ⟨rfl, rfl⟩, hsome, hv⟩)
      · exact .inl ⟨hnone, rfl, rfl⟩
      · exact .inr ⟨shape, v, hsome, rfl, hv⟩
  | _ => simp

end Shape

end Ssz
