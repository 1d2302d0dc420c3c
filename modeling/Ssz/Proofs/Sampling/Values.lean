-- SUMMARY: The values that can be drawn for a shape are its well-formed values with short lists.
import Ssz.Proofs.Bits.Runs
import Ssz.Proofs.Wire.Faults
import Ssz.Proofs.Wire.Slices
import Ssz.Sampling

/-!
# Values that are drawn

The check of a value and the set of values that are drawn are two recursions over
the shape. They agree: what is drawn passes the check, and whatever passes it is
drawn, as long as no list of it has more than six elements. This asks of the shape
that its unions can be chosen from. Byte lists and bit lists are drawn up to their
maximum, and vectors at their full length.
-/

namespace Ssz.Sampling

/-! ## Tuples -/

section Tuples

variable {α : Type} {set : List α}

theorem mem_tuples {count : Nat} {l : List α} :
    l ∈ tuples set count ↔ l.length = count ∧ ∀ x ∈ l, x ∈ set := by
  induction count generalizing l with
  | zero =>
    rw [tuples, List.mem_singleton, List.length_eq_zero_iff]
    constructor
    · rintro rfl
      exact ⟨rfl, List.forall_mem_nil _⟩
    · exact And.left
  | succ count ih =>
    cases l with
    | nil => simp [tuples]
    | cons x l => simp [tuples, ih, and_left_comm]

theorem mem_tuplesUpTo {max : Nat} {l : List α} :
    l ∈ tuplesUpTo set max ↔ l.length ≤ max ∧ ∀ x ∈ l, x ∈ set := by
  simp only [tuplesUpTo, List.mem_flatMap, List.mem_range, Nat.lt_succ_iff, mem_tuples]
  constructor
  · rintro ⟨_, hmax, rfl, hset⟩
    exact ⟨hmax, hset⟩
  · rintro ⟨hmax, hset⟩
    exact ⟨_, hmax, rfl, hset⟩

end Tuples

/-! ## Scalars and packed contents -/

theorem mem_allBytes (b : UInt8) : b ∈ allBytes :=
  List.mem_map.2 ⟨b.toNat, List.mem_range.2 b.toNat_lt, UInt8.ofNat_toNat⟩

theorem mem_allUints {width : UintWidth} {v : Value} :
    v ∈ allUints width ↔ ∃ n, v = .uint width n := by
  simp only [allUints, List.mem_map, List.mem_range]
  constructor
  · rintro ⟨n, -, rfl⟩
    exact ⟨_, rfl⟩
  · rintro ⟨n, rfl⟩
    exact ⟨n.toNat, n.isLt, by rw [BitVec.ofNat_toNat, BitVec.setWidth_eq]⟩

theorem mem_map_bits {lists : List (List Bool)} {v : Value} :
    v ∈ lists.map (fun bits => .bits (Bits.ofList bits)) ↔
      ∃ contents : Bits, v = .bits contents ∧ contents.toList ∈ lists := by
  rw [List.mem_map]
  constructor
  · rintro ⟨bits, hbits, rfl⟩
    exact ⟨_, rfl, by rwa [Bits.toList_ofList]⟩
  · rintro ⟨contents, rfl, hcontents⟩
    exact ⟨_, hcontents, by rw [Bits.ofList_toList]⟩

/-! ## Records and unions -/

theorem mem_fieldValues {fields : List (Field Shape)} {vs : List Value} :
    vs ∈ fieldValues fields ↔
      List.Forall₂ (fun field v => v ∈ values field.shape) fields vs := by
  induction fields generalizing vs with
  | nil => simp [fieldValues]
  | cons field fields ih =>
    cases vs with
    | nil => simp [fieldValues]
    | cons v vs => simp [fieldValues, ih]

/-- The values of one alternative of a union. -/
def choiceValues (selector : UInt8) : Option Shape → List Value
  | none => [.union selector none]
  | some shape => (values shape).map fun v => .union selector (some v)

theorem alternativeValues_cons (start : Nat) (choice : Option Shape)
    (alternatives : List (Option Shape)) :
    alternativeValues start (choice :: alternatives)
      = choiceValues (UInt8.ofNat start) choice ++ alternativeValues (start + 1) alternatives := by
  cases choice <;> rfl

theorem mem_alternativeValues {start : Nat} {alternatives : List (Option Shape)} {v : Value} :
    v ∈ alternativeValues start alternatives ↔
      ∃ index choice, alternatives[index]? = some choice ∧
        v ∈ choiceValues (UInt8.ofNat (start + index)) choice := by
  induction alternatives generalizing start with
  | nil => simp [alternativeValues]
  | cons choice alternatives ih =>
    have hnext (index : Nat) : start + 1 + index = start + (index + 1) := by omega
    simp only [alternativeValues_cons, List.mem_append, ih, hnext]
    constructor
    · rintro (hv | ⟨index, other, hother, hv⟩)
      · exact ⟨0, choice, rfl, hv⟩
      · exact ⟨index + 1, other, hother, hv⟩
    · rintro ⟨index, other, hother, hv⟩
      cases index with
      | zero =>
        cases hother
        exact .inl hv
      | succ index => exact .inr ⟨index, other, hother, hv⟩

/-! ## What can be chosen -/

/-- Each union of the shape has at least one alternative, no more of them than there are selectors,
    and no empty one but the first. -/
def Choosable (shape : Shape) : Prop :=
  ∀ alternatives, (Shape.union alternatives).OccursIn shape →
    alternatives ≠ [] ∧ alternatives.length ≤ 256 ∧
      ∀ index, alternatives[index]? = some none → index = 0

theorem mem_values_union {alternatives : List (Option Shape)} {v : Value}
    (h : Choosable (.union alternatives)) :
    v ∈ values (.union alternatives) ↔
      (v = .union 0 none ∧ alternatives[0]? = some none) ∨
        ∃ selector shape inner, v = .union selector (some inner) ∧
          alternatives[selector.toNat]? = some (some shape) ∧ inner ∈ values shape := by
  obtain ⟨-, hcount, hempty⟩ := h alternatives .here
  simp only [values, mem_alternativeValues, Nat.zero_add]
  constructor
  · rintro ⟨index, choice, hchoice, hv⟩
    cases choice with
    | none =>
      cases hempty index hchoice
      exact .inl ⟨List.mem_singleton.1 hv, hchoice⟩
    | some shape =>
      obtain ⟨inner, hinner, rfl⟩ := List.mem_map.1 hv
      have hlt : index < 256 :=
        Nat.lt_of_lt_of_le (List.getElem?_eq_some_iff.1 hchoice).1 hcount
      have hselector : (UInt8.ofNat index).toNat = index := UInt8.toNat_ofNat_of_lt' hlt
      exact .inr ⟨_, shape, inner, rfl, by rwa [hselector], hinner⟩
  · rintro (⟨rfl, hnone⟩ | ⟨selector, shape, inner, rfl, hshape, hinner⟩)
    · exact ⟨0, none, hnone, List.mem_singleton.2 rfl⟩
    · refine ⟨selector.toNat, some shape, hshape, ?_⟩
      rw [UInt8.ofNat_toNat]
      exact List.mem_map.2 ⟨inner, hinner, rfl⟩

/-! ## Short lists -/

/-- No list of the value has more than six elements. -/
def ShortLists (shape : Shape) (v : Value) : Prop :=
  ∀ element max items, ⟨.list element max, .list items⟩ ∈ shape.nodes v → items.length ≤ 6

theorem shortLists_vector {element : Shape} {length : Nat} {items : List Value} :
    ShortLists (.vector element length) (.list items) ↔
      ∀ item ∈ items, ShortLists element item := by
  simp only [ShortLists, Shape.nodes, List.mem_cons, Node.mk.injEq, reduceCtorEq, false_and,
    false_or, List.mem_flatMap]
  constructor
  · exact fun h item hitem element max inner hnode => h element max inner ⟨item, hitem, hnode⟩
  · rintro h element max inner ⟨item, hitem, hnode⟩
    exact h item hitem element max inner hnode

theorem shortLists_list {element : Shape} {max : Nat} {items : List Value} :
    ShortLists (.list element max) (.list items) ↔
      items.length ≤ 6 ∧ ∀ item ∈ items, ShortLists element item := by
  constructor
  · intro h
    refine ⟨h element max items List.mem_cons_self, fun item hitem other bound inner hnode => ?_⟩
    exact h other bound inner (List.mem_cons_of_mem _ (List.mem_flatMap.2 ⟨item, hitem, hnode⟩))
  · rintro ⟨hitems, h⟩ other bound inner hnode
    rcases List.mem_cons.1 hnode with heq | hnode
    · cases heq
      exact hitems
    · obtain ⟨item, hitem, hnode⟩ := List.mem_flatMap.1 hnode
      exact h item hitem other bound inner hnode

theorem shortLists_fields {fields : List (Field Shape)} {vs : List Value}
    (hlength : fields.length = vs.length) :
    (∀ element max items, ⟨.list element max, .list items⟩ ∈ Shape.fieldNodes fields vs →
        items.length ≤ 6) ↔
      List.Forall₂ (fun field v => ShortLists field.shape v) fields vs := by
  induction fields generalizing vs with
  | nil =>
    cases List.eq_nil_of_length_eq_zero hlength.symm
    exact iff_of_true nofun .nil
  | cons field fields ih =>
    cases vs with
    | nil => cases hlength
    | cons v vs =>
      rw [List.forall₂_cons, ← ih (Nat.succ.inj hlength)]
      simp only [Shape.fieldNodes, List.mem_append, or_imp, forall_and, ShortLists]

theorem shortLists_container {name : String} {fields : List (Field Shape)} {vs : List Value}
    (hlength : fields.length = vs.length) :
    ShortLists (.container name fields) (.container vs) ↔
      List.Forall₂ (fun field v => ShortLists field.shape v) fields vs := by
  rw [← shortLists_fields hlength]
  simp only [ShortLists, Shape.nodes, List.mem_cons, Node.mk.injEq, reduceCtorEq, false_and,
    false_or]

theorem shortLists_union_none {alternatives : List (Option Shape)} {selector : UInt8} :
    ShortLists (.union alternatives) (.union selector none) := by
  intro element max items hnode
  cases List.mem_singleton.1 hnode

theorem shortLists_union_some {alternatives : List (Option Shape)} {selector : UInt8}
    {shape : Shape} (hshape : alternatives[selector.toNat]? = some (some shape)) {inner : Value} :
    ShortLists (.union alternatives) (.union selector (some inner)) ↔ ShortLists shape inner := by
  simp only [ShortLists, Shape.nodes, List.mem_cons, Node.mk.injEq, reduceCtorEq, false_and,
    false_or, Shape.chosenNodes_eq hshape]

/-- A value without parts holds no list. -/
theorem shortLists_of_nodes {shape : Shape} {v : Value} (hnodes : shape.nodes v = [⟨shape, v⟩])
    (hshape : ∀ element max, shape ≠ .list element max) : ShortLists shape v := by
  intro element max items hnode
  rw [hnodes, List.mem_singleton, Node.mk.injEq] at hnode
  exact absurd hnode.1.symm (hshape element max)

/-! ## What is drawn -/

theorem mem_values_bool {v : Value} : v ∈ values .bool ↔ Shape.check .bool v = .ok () := by
  rw [Shape.check_bool, values, List.mem_pair]
  constructor
  · rintro (rfl | rfl) <;> exact ⟨_, rfl⟩
  · rintro ⟨b, rfl⟩
    cases b
    · exact .inl rfl
    · exact .inr rfl

theorem mem_values_uint {width : UintWidth} {v : Value} :
    v ∈ values (.uint width) ↔ Shape.check (.uint width) v = .ok () := by
  rw [Shape.check_uint, values, mem_allUints]

theorem mem_values_byteVector {length : Nat} {v : Value} :
    v ∈ values (.byteVector length) ↔ Shape.check (.byteVector length) v = .ok () := by
  simp [Shape.check_byteVector, values, mem_tuples, mem_allBytes, and_comm, @eq_comm _ v]

theorem mem_values_byteList {max : Nat} {v : Value} :
    v ∈ values (.byteList max) ↔ Shape.check (.byteList max) v = .ok () := by
  simp [Shape.check_byteList, values, mem_tuplesUpTo, mem_allBytes, and_comm, @eq_comm _ v]

theorem mem_values_bitVector {length : Nat} {v : Value} :
    v ∈ values (.bitVector length) ↔ Shape.check (.bitVector length) v = .ok () := by
  simp [Shape.check_bitVector, values, mem_map_bits, mem_tuples, Bits.length_toList]

theorem mem_values_bitList {max : Nat} {v : Value} :
    v ∈ values (.bitList max) ↔ Shape.check (.bitList max) v = .ok () := by
  simp [Shape.check_bitList, values, mem_map_bits, mem_tuplesUpTo, Bits.length_toList]

/-- A shape without parts draws every value that passes the check. -/
theorem mem_values_of_nodes {shape : Shape} {v : Value}
    (h : v ∈ values shape ↔ shape.check v = .ok ()) (hnodes : shape.nodes v = [⟨shape, v⟩])
    (hshape : ∀ element max, shape ≠ .list element max) :
    v ∈ values shape ↔ shape.check v = .ok () ∧ ShortLists shape v := by
  rw [h, and_iff_left (shortLists_of_nodes hnodes hshape)]

theorem mem_fieldValues_iff {fields : List (Field Shape)} {vs : List Value}
    (h : ∀ field ∈ fields, ∀ v, v ∈ values field.shape ↔
      field.shape.check v = .ok () ∧ ShortLists field.shape v) :
    vs ∈ fieldValues fields ↔
      List.Forall₂ (fun field v => field.shape.check v = .ok ()) fields vs ∧
        List.Forall₂ (fun field v => ShortLists field.shape v) fields vs := by
  rw [mem_fieldValues]
  constructor
  · intro hvs
    have hboth := forall₂_imp_of_mem hvs fun field hfield v hv => (h field hfield v).1 hv
    exact ⟨hboth.imp fun _ _ => And.left, hboth.imp fun _ _ => And.right⟩
  · rintro ⟨hcheck, hshort⟩
    have hvalues := forall₂_imp_of_mem hcheck fun field hfield v hv hs =>
      (h field hfield v).2 ⟨hv, hs⟩
    exact hvalues.mp (fun field v hv hs => hv hs) hshort

/-- The values that are drawn are those that pass the check and have short lists. -/
theorem mem_values {shape : Shape} (h : Choosable shape) {v : Value} :
    v ∈ values shape ↔ shape.check v = .ok () ∧ ShortLists shape v := by
  induction shape generalizing v with
  | bool => exact mem_values_of_nodes mem_values_bool rfl nofun
  | uint width => exact mem_values_of_nodes mem_values_uint rfl nofun
  | byteVector length => exact mem_values_of_nodes mem_values_byteVector rfl nofun
  | byteList max => exact mem_values_of_nodes mem_values_byteList rfl nofun
  | bitVector length => exact mem_values_of_nodes mem_values_bitVector rfl nofun
  | bitList max => exact mem_values_of_nodes mem_values_bitList rfl nofun
  | vector element length ih =>
    have helement : Choosable element := fun others hoccurs => h others (.vector hoccurs)
    simp only [values, List.mem_map, mem_tuples, ih helement, Shape.check_vector]
    constructor
    · rintro ⟨items, ⟨hlength, hitems⟩, rfl⟩
      exact ⟨⟨items, rfl, hlength, fun item hitem => (hitems item hitem).1⟩,
        shortLists_vector.2 fun item hitem => (hitems item hitem).2⟩
    · rintro ⟨⟨items, rfl, hlength, hcheck⟩, hshort⟩
      have hshort' := shortLists_vector.1 hshort
      exact ⟨items, ⟨hlength, fun item hitem => ⟨hcheck item hitem, hshort' item hitem⟩⟩, rfl⟩
  | list element max ih =>
    have helement : Choosable element := fun others hoccurs => h others (.list hoccurs)
    simp only [values, List.mem_map, mem_tuplesUpTo, Nat.le_min, ih helement, Shape.check_list]
    constructor
    · rintro ⟨items, ⟨⟨hmax, hsix⟩, hitems⟩, rfl⟩
      exact ⟨⟨items, rfl, hmax, fun item hitem => (hitems item hitem).1⟩,
        shortLists_list.2 ⟨hsix, fun item hitem => (hitems item hitem).2⟩⟩
    · rintro ⟨⟨items, rfl, hmax, hcheck⟩, hshort⟩
      obtain ⟨hsix, hshort'⟩ := shortLists_list.1 hshort
      exact ⟨items, ⟨⟨hmax, hsix⟩, fun item hitem => ⟨hcheck item hitem, hshort' item hitem⟩⟩, rfl⟩
  | container name fields ih =>
    have hfields : ∀ field ∈ fields, ∀ v, v ∈ values field.shape ↔
        field.shape.check v = .ok () ∧ ShortLists field.shape v := fun field hfield v =>
      ih field hfield fun alternatives hoccurs => h alternatives (.container hfield hoccurs)
    simp only [values, List.mem_map, mem_fieldValues_iff hfields, Shape.check_container]
    constructor
    · rintro ⟨vs, ⟨hcheck, hshort⟩, rfl⟩
      exact ⟨⟨vs, rfl, hcheck⟩, (shortLists_container hcheck.length_eq).2 hshort⟩
    · rintro ⟨⟨vs, rfl, hcheck⟩, hshort⟩
      exact ⟨vs, ⟨hcheck, (shortLists_container hcheck.length_eq).1 hshort⟩, rfl⟩
  | union alternatives ih =>
    have halternatives : ∀ shape, some shape ∈ alternatives → Choosable shape :=
      fun shape hshape others hoccurs => h others (.union hshape hoccurs)
    rw [mem_values_union h, Shape.check_union]
    constructor
    · rintro (⟨rfl, hnone⟩ | ⟨selector, shape, inner, rfl, hshape, hinner⟩)
      · exact ⟨.inl ⟨rfl, hnone⟩, shortLists_union_none⟩
      · have hmem := List.mem_of_getElem? hshape
        obtain ⟨hcheck, hshort⟩ := (ih shape hmem (halternatives shape hmem)).1 hinner
        exact ⟨.inr ⟨selector, shape, inner, rfl, hshape, hcheck⟩,
          (shortLists_union_some hshape).2 hshort⟩
    · rintro ⟨⟨rfl, hnone⟩ | ⟨selector, shape, inner, rfl, hshape, hcheck⟩, hshort⟩
      · exact .inl ⟨rfl, hnone⟩
      · have hmem := List.mem_of_getElem? hshape
        have hinner := (ih shape hmem (halternatives shape hmem)).2
          ⟨hcheck, (shortLists_union_some hshape).1 hshort⟩
        exact .inr ⟨selector, shape, inner, rfl, hshape, hinner⟩

end Ssz.Sampling
