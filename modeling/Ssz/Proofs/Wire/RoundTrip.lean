-- SUMMARY: Decoding the encoding of a value gives it back, up to lists of elements without bytes.
import Ssz.Proofs.Wire.Canonical

/-!
# Round trip

The wire keeps everything of a value except the number of elements of a list
whose elements are encoded to no bytes at all. `Shape.collapse` makes the same
of a value without going over the wire, and it changes the value exactly if such
a list is in it.
-/

namespace Ssz

open OffsetTable (Sequence)

namespace Shape

/-! ## What is lost -/

mutual

/-- The value with every list of elements of size zero emptied. -/
def collapse : Shape → Value → Value
  | .vector element _, .list items => .list (items.map fun item => element.collapse item)
  | .list element _, .list items =>
    if element.fixedSize? = some 0 then .list []
    else .list (items.map fun item => element.collapse item)
  | .container _ fields, .container values => .container (collapseFields fields values)
  | .union alternatives, .union selector (some inner) =>
    .union selector (some (collapseChosen alternatives selector.toNat inner))
  | _, v => v
termination_by structural shape => shape

def collapseFields : List (Field Shape) → List Value → List Value
  | ⟨_, _, shape⟩ :: fields, v :: values => shape.collapse v :: collapseFields fields values
  | _, values => values
termination_by structural fields => fields

def collapseChosen : (alternatives : List (Option Shape)) → (index : Nat) → Value → Value
  | some shape :: _, 0, inner => shape.collapse inner
  | _ :: alternatives, index + 1, inner => collapseChosen alternatives index inner
  | _, _, inner => inner
termination_by structural alternatives => alternatives

end

/-- Somewhere in the value there is a list that has elements, but elements of size zero. -/
inductive HoldsSizeless : Shape → Value → Prop
  | here {element max items} : element.fixedSize? = some 0 → items ≠ [] →
      HoldsSizeless (.list element max) (.list items)
  | vector {element length items item} : item ∈ items → HoldsSizeless element item →
      HoldsSizeless (.vector element length) (.list items)
  | list {element max items item} : item ∈ items → HoldsSizeless element item →
      HoldsSizeless (.list element max) (.list items)
  | container {name fields values field v} (index : Nat) : fields[index]? = some field →
      values[index]? = some v → HoldsSizeless field.shape v →
      HoldsSizeless (.container name fields) (.container values)
  | union {alternatives selector shape inner} : alternatives[selector.toNat]? = some (some shape) →
      HoldsSizeless shape inner → HoldsSizeless (.union alternatives) (.union selector (some inner))

theorem holdsSizeless_vector {element : Shape} {length : Nat} {items : List Value} :
    HoldsSizeless (.vector element length) (.list items) ↔
      ∃ item ∈ items, element.HoldsSizeless item := by
  constructor
  · intro h
    cases h with
    | vector hitem h => exact ⟨_, hitem, h⟩
  · rintro ⟨item, hitem, h⟩
    exact .vector hitem h

theorem holdsSizeless_list {element : Shape} {max : Nat} {items : List Value} :
    HoldsSizeless (.list element max) (.list items) ↔
      (element.fixedSize? = some 0 ∧ items ≠ []) ∨ ∃ item ∈ items, element.HoldsSizeless item := by
  constructor
  · intro h
    cases h with
    | here hzero hitems => exact .inl ⟨hzero, hitems⟩
    | list hitem h => exact .inr ⟨_, hitem, h⟩
  · rintro (⟨hzero, hitems⟩ | ⟨item, hitem, h⟩)
    · exact .here hzero hitems
    · exact .list hitem h

theorem holdsSizeless_container {name : String} {fields : List (Field Shape)}
    {values : List Value} :
    HoldsSizeless (.container name fields) (.container values) ↔
      ∃ (index : Nat) (field : Field Shape) (v : Value), fields[index]? = some field ∧
        values[index]? = some v ∧ field.shape.HoldsSizeless v := by
  constructor
  · intro h
    cases h with
    | container index hfield hv h => exact ⟨index, _, _, hfield, hv, h⟩
  · rintro ⟨index, field, v, hfield, hv, h⟩
    exact .container index hfield hv h

theorem holdsSizeless_union {alternatives : List (Option Shape)} {selector : UInt8}
    {inner : Value} :
    HoldsSizeless (.union alternatives) (.union selector (some inner)) ↔
      ∃ shape, alternatives[selector.toNat]? = some (some shape) ∧ shape.HoldsSizeless inner := by
  constructor
  · intro h
    cases h with
    | union hshape h => exact ⟨_, hshape, h⟩
  · rintro ⟨shape, hshape, h⟩
    exact .union hshape h

theorem map_eq_self_iff {items : List Value} {f : Value → Value} :
    items.map f = items ↔ ∀ item ∈ items, f item = item := by
  calc items.map f = items ↔ items.map f = items.map id := by rw [List.map_id]
    _ ↔ ∀ item ∈ items, f item = item := List.map_inj_left

theorem collapseChosen_eq {alternatives : List (Option Shape)} {index : Nat} {shape : Shape}
    (hshape : alternatives[index]? = some (some shape)) (inner : Value) :
    collapseChosen alternatives index inner = shape.collapse inner := by
  refine chosen_induction hshape ?_ ?_
  · intro rest
    rfl
  · intro choice rest index ih
    cases choice <;> exact ih

theorem collapseChosen_eq_self_iff {alternatives : List (Option Shape)} {index : Nat}
    {inner : Value} :
    collapseChosen alternatives index inner = inner ↔
      ∀ shape, alternatives[index]? = some (some shape) → shape.collapse inner = inner := by
  induction alternatives generalizing index with
  | nil => simp [collapseChosen]
  | cons choice alternatives ih =>
    cases index with
    | zero => cases choice <;> simp [collapseChosen]
    | succ index => cases choice <;> simp [collapseChosen, ih]

theorem collapseFields_eq_self_iff {fields : List (Field Shape)} {values : List Value} :
    collapseFields fields values = values ↔
      ∀ (index : Nat) (field : Field Shape) (v : Value), fields[index]? = some field →
        values[index]? = some v → field.shape.collapse v = v := by
  induction fields generalizing values with
  | nil => simp [collapseFields]
  | cons field fields ih =>
    cases values with
    | nil => simp [collapseFields]
    | cons v values =>
      simp only [collapseFields, List.cons.injEq, ih]
      constructor
      · rintro ⟨hv, hvalues⟩ (_ | index) other w hother hw
        · cases hother
          cases hw
          exact hv
        · exact hvalues index other w hother hw
      · intro h
        exact ⟨h 0 field v rfl rfl, fun index => h (index + 1)⟩

theorem collapse_vector_eq_self_iff {element : Shape} {length : Nat} {items : List Value}
    (ih : ∀ item, element.collapse item = item ↔ ¬element.HoldsSizeless item) :
    collapse (.vector element length) (.list items) = .list items ↔
      ¬HoldsSizeless (.vector element length) (.list items) := by
  simp only [collapse, Value.list.injEq, map_eq_self_iff, ih, holdsSizeless_vector, not_exists,
    not_and]

theorem collapse_list_eq_self_iff {element : Shape} {max : Nat} {items : List Value}
    (ih : ∀ item, element.collapse item = item ↔ ¬element.HoldsSizeless item) :
    collapse (.list element max) (.list items) = .list items ↔
      ¬HoldsSizeless (.list element max) (.list items) := by
  rw [holdsSizeless_list, collapse]
  by_cases hzero : element.fixedSize? = some 0
  · -- An element inside makes the list non-empty, so only the list itself counts.
    have hinside : (∃ item ∈ items, element.HoldsSizeless item) → items ≠ [] := by
      rintro ⟨item, hitem, -⟩
      exact List.ne_nil_of_mem hitem
    rw [if_pos hzero, Value.list.injEq]
    constructor
    · rintro rfl (⟨-, hne⟩ | hitem)
      · exact hne rfl
      · exact hinside hitem rfl
    · intro h
      by_contra hne
      exact h (.inl ⟨hzero, Ne.symm hne⟩)
  · simp only [hzero, if_false, Value.list.injEq, map_eq_self_iff, ih, false_and, false_or,
      not_exists, not_and]

theorem collapse_container_eq_self_iff {name : String} {fields : List (Field Shape)}
    {values : List Value}
    (ih : ∀ field ∈ fields, ∀ v, field.shape.collapse v = v ↔ ¬field.shape.HoldsSizeless v) :
    collapse (.container name fields) (.container values) = .container values ↔
      ¬HoldsSizeless (.container name fields) (.container values) := by
  rw [collapse, Value.container.injEq, collapseFields_eq_self_iff, holdsSizeless_container]
  push Not
  refine forall₃_congr fun index field v => forall_congr' fun hfield => ?_
  rw [ih field (List.mem_of_getElem? hfield)]

theorem collapse_union_eq_self_iff {alternatives : List (Option Shape)} {selector : UInt8}
    {inner : Value}
    (ih : ∀ shape, some shape ∈ alternatives → ∀ v, shape.collapse v = v ↔ ¬shape.HoldsSizeless v) :
    collapse (.union alternatives) (.union selector (some inner)) = .union selector (some inner) ↔
      ¬HoldsSizeless (.union alternatives) (.union selector (some inner)) := by
  simp only [collapse, Value.union.injEq, true_and, Option.some.injEq, collapseChosen_eq_self_iff,
    holdsSizeless_union, not_exists, not_and]
  refine forall₂_congr fun shape hshape => ?_
  exact ih shape (List.mem_of_getElem? hshape) inner

/-- A value is left as it is exactly if it holds no list that would be emptied. -/
theorem collapse_eq_self_iff {shape : Shape} {v : Value} :
    shape.collapse v = v ↔ ¬shape.HoldsSizeless v := by
  induction shape generalizing v with
  | vector element length ih =>
    cases v with
    | list items => exact collapse_vector_eq_self_iff fun _ => ih
    | _ => exact iff_of_true rfl nofun
  | list element max ih =>
    cases v with
    | list items => exact collapse_list_eq_self_iff fun _ => ih
    | _ => exact iff_of_true rfl nofun
  | container name fields ih =>
    cases v with
    | container values => exact collapse_container_eq_self_iff fun field hfield _ => ih field hfield
    | _ => exact iff_of_true rfl nofun
  | union alternatives ih =>
    cases v with
    | union selector inner =>
      cases inner with
      | none => exact iff_of_true rfl nofun
      | some inner => exact collapse_union_eq_self_iff fun shape hshape _ => ih shape hshape
    | _ => exact iff_of_true rfl nofun
  | _ => exact iff_of_true rfl nofun

/-! ## Reading back -/

theorem Fieldwise.collapse {R S : Shape → Bytes → Value → Prop} {fields : List (Field Shape)}
    {parts : List Bytes} {values : List Value} (h : Fieldwise R fields parts values)
    (himp : ∀ field ∈ fields, ∀ part v, R field.shape part v →
      S field.shape part (field.shape.collapse v)) :
    Fieldwise S fields parts (collapseFields fields values) := by
  induction h with
  | nil => exact .nil
  | cons hR _ ih =>
    refine .cons (himp _ List.mem_cons_self _ _ hR) (ih fun field hfield => ?_)
    exact himp field (List.mem_cons_of_mem _ hfield)

/-- Parts without bytes are joined to nothing. -/
theorem eq_nil_of_sequence {parts : List Bytes} {bytes : Bytes}
    (h : Sequence (some 0) parts bytes) : bytes = [] := by
  obtain ⟨hsizes, rfl⟩ := OffsetTable.sequence_fixed.1 h
  refine List.eq_nil_of_length_eq_zero ?_
  rw [length_flatten_of_forall hsizes, Nat.zero_mul]

theorem decode_of_encodes {shape : Shape} {v : Value} {bytes : Bytes}
    (h : shape.Encodes v bytes) : shape.decode bytes = .ok (shape.collapse v) := by
  induction shape generalizing v bytes with
  | bool => exact decode_bool.2 h
  | uint width => exact decode_uint.2 h
  | byteVector length => exact decode_byteVector.2 h
  | byteList max => exact decode_byteList.2 h
  | bitVector length => exact decode_bitVector.2 h
  | bitList max => exact decode_bitList.2 h
  | vector element length ih =>
    obtain ⟨parts, items, hlength, hitems, hjoin, rfl⟩ := encodes_vector.1 h
    have hdecode : List.Forall₂ (fun part item => element.decode part = .ok item) parts
        (items.map fun item => element.collapse item) :=
      List.forall₂_map_right_iff.2 (hitems.imp fun _ _ hitem => ih hitem)
    exact decode_vector.2 ⟨parts, _, hlength, Encodes.sequence hitems hjoin, hdecode, rfl⟩
  | list element max ih =>
    obtain ⟨parts, items, hmax, hitems, hjoin, rfl⟩ := encodes_list.1 h
    have hsequence := Encodes.sequence hitems hjoin
    by_cases hzero : element.fixedSize? = some 0
    · rw [hzero] at hsequence
      cases eq_nil_of_sequence hsequence
      rw [collapse, if_pos hzero]
      exact decode_list.2
        ⟨[], [], Nat.zero_le _, fun _ => rfl, OffsetTable.sequence_nil.2 rfl, .nil, rfl⟩
    · have hdecode : List.Forall₂ (fun part item => element.decode part = .ok item) parts
          (items.map fun item => element.collapse item) :=
        List.forall₂_map_right_iff.2 (hitems.imp fun _ _ hitem => ih hitem)
      rw [collapse, if_neg hzero]
      exact decode_list.2 ⟨parts, _, hmax, fun h => absurd h hzero, hsequence, hdecode, rfl⟩
  | container name fields ih =>
    obtain ⟨parts, values, hfields, hjoin, rfl⟩ := encodes_container.1 h
    have hdecode : Fieldwise (fun shape part v => shape.decode part = .ok v) fields parts
        (collapseFields fields values) :=
      hfields.collapse fun field hfield _ _ hv => ih field hfield hv
    exact decode_container.2 ⟨parts, _, Encodes.split hfields hjoin, hdecode, rfl⟩
  | union alternatives ih =>
    obtain ⟨hnone, rfl, rfl⟩ | ⟨selector, shape, payload, inner, hshape, rfl, hinner, rfl⟩ :=
      encodes_union.1 h
    · exact decode_union.2 (.inl ⟨hnone, rfl, rfl⟩)
    · have hdecode := ih shape (List.mem_of_getElem? hshape) hinner
      rw [collapse, collapseChosen_eq hshape]
      exact decode_union.2 (.inr ⟨selector, shape, payload, _, hshape, rfl, hdecode, rfl⟩)

end Shape

theorem decode_eq_collapse {shape : Shape} {v : Value} {bytes : Bytes}
    (h : encode shape v = .ok bytes) : decode shape bytes = .ok (shape.collapse v) :=
  Shape.decode_of_encodes (encode_eq_ok.1 h)

/-- An encoding decodes to its value exactly if nothing of the value is lost. -/
theorem decode_eq_self_iff {shape : Shape} {v : Value} {bytes : Bytes}
    (h : encode shape v = .ok bytes) : decode shape bytes = .ok v ↔ ¬shape.HoldsSizeless v := by
  rw [decode_eq_collapse h, Except.ok.injEq, Shape.collapse_eq_self_iff]

/-- A value is read back from its encoding, except that lists of elements of size zero come back
    empty. What the decoder accepts are the encodings of well-formed values, and nothing else. -/
theorem decode_of_encode (shape : Shape) :
    (∀ v bytes, encode shape v = .ok bytes →
      decode shape bytes = .ok (shape.collapse v) ∧
        (decode shape bytes = .ok v ↔ ¬shape.HoldsSizeless v)) ∧
    ∀ bytes, (∃ v, decode shape bytes = .ok v) ↔
      ∃ v, shape.check v = .ok () ∧ encode shape v = .ok bytes := by
  have hdecode : ∀ {v bytes}, encode shape v = .ok bytes →
      decode shape bytes = .ok (shape.collapse v) :=
    fun h => Shape.decode_of_encodes (encode_eq_ok.1 h)
  constructor
  · intro v bytes hencode
    refine ⟨hdecode hencode, ?_⟩
    rw [hdecode hencode, Except.ok.injEq, Shape.collapse_eq_self_iff]
  · intro bytes
    constructor
    · rintro ⟨v, h⟩
      have hencodes := Shape.encodes_of_decode h
      exact ⟨v, hencodes.check, encode_eq_ok.2 hencodes⟩
    · rintro ⟨v, -, hencode⟩
      exact ⟨_, hdecode hencode⟩

theorem decode_of_encode_ticks :
    let shape : Shape := .container "log" [⟨"ticks", "ticks", .list (.container "tick" []) 9⟩,
      ⟨"notes", "notes", .list (.byteList 4) 3⟩]
    let v : Value := .container
      [.list [.container [], .container []], .list [.bytes [], .bytes [7, 9]]]
    let bytes : Bytes := [8, 0, 0, 0, 8, 0, 0, 0, 8, 0, 0, 0, 8, 0, 0, 0, 7, 9]
    encode shape v = .ok bytes ∧
      decode shape bytes = .ok (.container [.list [], .list [.bytes [], .bytes [7, 9]]]) ∧
      decode shape bytes ≠ .ok v := by
  intro shape v bytes
  have h := (decode_of_encode shape).1 v bytes (by rfl)
  refine ⟨by rfl, h.1, fun hdecode => ?_⟩
  exact h.2.1 hdecode (.container 0 rfl rfl (.here rfl (List.cons_ne_nil _ _)))

end Ssz
