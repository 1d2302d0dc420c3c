-- SUMMARY: The writer fails on a well-formed value only at an offset too large for its place.
import Ssz.Proofs.Wire.Layout

/-!
# Offsets that do not fit

The check that runs before the writer leaves it one way to fail: an offset that
takes more than four bytes. `shape.HasOffset v offset` says that somewhere in `v`
a part of variable size starts at `offset`, in the closed form of the layout, and
the writer is shown to succeed exactly if all of these offsets are below `2 ^ 32`.
-/

namespace Ssz

open OffsetTable (Segment segments)

/-! ## Runs that are decided by offsets -/

/-- The run succeeds and all of the offsets fit into four bytes, or it fails at one that does
    not. -/
inductive Addressed {α : Type} (offsets : Nat → Prop) : Except EncodeError α → Prop
  | fits {a : α} : (∀ offset, offsets offset → offset < 2 ^ 32) → Addressed offsets (.ok a)
  | overflows {offset : Nat} : offsets offset → 2 ^ 32 ≤ offset →
      Addressed offsets (.error (.offsetOverflow offset))

namespace Addressed

variable {α β : Type} {p q : Nat → Prop} {x : Except EncodeError α}

theorem congr (h : Addressed p x) (hiff : ∀ offset, q offset ↔ p offset) : Addressed q x := by
  cases h with
  | fits hfits => exact .fits fun offset hoffset => hfits offset ((hiff offset).1 hoffset)
  | overflows hoffset hlarge => exact .overflows ((hiff _).2 hoffset) hlarge

theorem ok_of_none {a : α} (h : ∀ offset, ¬ p offset) :
    Addressed p (.ok a : Except EncodeError α) :=
  .fits fun offset hoffset => absurd hoffset (h offset)

/-- Offsets that fit may be added. -/
theorem widen (h : Addressed q x) (hp : ∀ offset, p offset → offset < 2 ^ 32) :
    Addressed (fun offset => p offset ∨ q offset) x := by
  cases h with
  | fits hq => exact .fits fun offset hoffset => hoffset.elim (hp offset) (hq offset)
  | overflows hoffset hlarge => exact .overflows (.inr hoffset) hlarge

/-- Of two runs in a row, the second only matters if the first has succeeded. -/
theorem bind {f : α → Except EncodeError β} (hx : Addressed p x)
    (hf : ∀ a, x = .ok a → Addressed q (f a)) :
    Addressed (fun offset => p offset ∨ q offset) (x >>= f) := by
  cases hx with
  | @fits a hp => exact (hf a rfl).widen hp
  | overflows hoffset hlarge => exact .overflows (.inl hoffset) hlarge

theorem map {f : α → β} (hx : Addressed p x) : Addressed p (do return f (← x)) := by
  cases hx with
  | fits hp => exact .fits hp
  | overflows hoffset hlarge => exact .overflows hoffset hlarge

theorem mapM {f : α → Except EncodeError β} {offsets : α → Nat → Prop} {xs : List α}
    (h : ∀ x ∈ xs, Addressed (offsets x) (f x)) :
    Addressed (fun offset => ∃ x ∈ xs, offsets x offset) (xs.mapM f) := by
  induction xs with
  | nil =>
    refine ok_of_none ?_
    rintro offset ⟨x, hx, -⟩
    cases hx
  | cons x xs ih =>
    have hrest := ih fun other hother => h other (List.mem_cons_of_mem _ hother)
    rw [List.mapM_cons]
    refine ((h x List.mem_cons_self).bind fun y _ => hrest.map).congr fun offset => ?_
    simp only [List.mem_cons, exists_eq_or_imp]

theorem isOk_iff (h : Addressed p x) :
    (∃ a, x = .ok a) ↔ ∀ offset, p offset → offset < 2 ^ 32 := by
  cases h with
  | fits hfits => exact ⟨fun _ => hfits, fun _ => ⟨_, rfl⟩⟩
  | overflows hoffset hlarge =>
    constructor
    · rintro ⟨a, ha⟩
      cases ha
    · intro hfits
      exact absurd (hfits _ hoffset) (Nat.not_lt.2 hlarge)

theorem exists_overflow (h : Addressed p x) {offset : Nat} (hoffset : p offset)
    (hlarge : 2 ^ 32 ≤ offset) :
    ∃ offset, p offset ∧ 2 ^ 32 ≤ offset ∧ x = .error (.offsetOverflow offset) := by
  cases h with
  | fits hfits => exact absurd (hfits offset hoffset) (Nat.not_lt.2 hlarge)
  | overflows hfirst hlarge => exact ⟨_, hfirst, hlarge, rfl⟩

end Addressed

/-! ## Offsets of one composite -/

namespace Part

/-- A part of variable size starts at `offset`, if the first of them starts at `start`. -/
def StartsFrom (start : Nat) (parts : List Part) (offset : Nat) : Prop :=
  ∃ index body, parts[index]? = some ⟨none, body⟩ ∧
    offset = start + ((deferred (parts.take index)).map List.length).sum

/-- A part of variable size starts at `offset`. -/
def StartsAt (parts : List Part) (offset : Nat) : Prop :=
  StartsFrom (prefixLength parts) parts offset

theorem startsFrom_nil {start offset : Nat} : ¬ StartsFrom start [] offset := by
  rintro ⟨index, body, hpart, -⟩
  cases hpart

theorem startsFrom_fixed {start size offset : Nat} {body : Bytes} {parts : List Part} :
    StartsFrom start (⟨some size, body⟩ :: parts) offset ↔ StartsFrom start parts offset := by
  constructor
  · rintro ⟨index, other, hpart, hoffset⟩
    cases index with
    | zero => cases hpart
    | succ index => exact ⟨index, other, hpart, hoffset⟩
  · rintro ⟨index, other, hpart, hoffset⟩
    exact ⟨index + 1, other, hpart, hoffset⟩

theorem startsFrom_variable {start offset : Nat} {body : Bytes} {parts : List Part} :
    StartsFrom start (⟨none, body⟩ :: parts) offset ↔
      offset = start ∨ StartsFrom (start + body.length) parts offset := by
  have hnext (index : Nat) :
      start + ((deferred ((⟨none, body⟩ :: parts).take (index + 1))).map List.length).sum
        = start + body.length + ((deferred (parts.take index)).map List.length).sum := by
    rw [List.take_succ_cons, deferred_variable, List.map_cons, List.sum_cons, Nat.add_assoc]
  constructor
  · rintro ⟨index, other, hpart, rfl⟩
    cases index with
    | zero => exact .inl rfl
    | succ index => exact .inr ⟨index, other, hpart, hnext index⟩
  · rintro (rfl | ⟨index, other, hpart, rfl⟩)
    · exact ⟨0, body, rfl, rfl⟩
    · exact ⟨index + 1, other, hpart, (hnext index).symm⟩

/-- The writer of the prefix checks each offset before it writes it. -/
theorem heads_addressed (start : Nat) (parts : List Part) :
    Addressed (StartsFrom start parts) (OffsetTable.heads start (parts.map toSegment)) := by
  induction parts generalizing start with
  | nil => exact .ok_of_none fun _ => startsFrom_nil
  | cons part parts ih =>
    obtain ⟨_ | size, body⟩ := part
    · rw [List.map_cons, toSegment]
      change Addressed _ (if start < Nat.pow 256 bytesPerOffset then _ else _)
      split
      · rename_i hfits
        have hstart : ∀ offset, offset = start → offset < 2 ^ 32 := by
          rintro _ rfl
          exact hfits
        exact ((ih (start + body.length)).map.widen hstart).congr fun offset => startsFrom_variable
      · rename_i hlarge
        exact .overflows (startsFrom_variable.2 (.inl rfl)) (Nat.not_lt.1 hlarge)
    · exact (ih start).map.congr fun offset => startsFrom_fixed

theorem join_addressed {parts : List Part} (hfits : ∀ part ∈ parts, part.Fits) :
    Addressed (StartsAt parts) (OffsetTable.join (parts.map toSegment)) := by
  rw [OffsetTable.join, prefixLength_toSegment hfits]
  exact (heads_addressed _ _).map

end Part

namespace Shape

/-! ## Offsets of a value -/

/-- The parts of a composite, as they are laid out. -/
def parts : Shape → Value → List Part
  | .vector element _, .list items | .list element _, .list items =>
    items.map fun item => ⟨element.fixedSize?, element.layout item⟩
  | .container _ fields, .container values => layoutFields fields values
  | _, _ => []

/-- In some composite of the value, a part of variable size starts at the offset. -/
inductive HasOffset : Shape → Value → Nat → Prop
  | here {shape v offset} : Part.StartsAt (parts shape v) offset → HasOffset shape v offset
  | vector {element length items item offset} : item ∈ items → HasOffset element item offset →
      HasOffset (.vector element length) (.list items) offset
  | list {element max items item offset} : item ∈ items → HasOffset element item offset →
      HasOffset (.list element max) (.list items) offset
  | container {name fields values field v offset} (index : Nat) : fields[index]? = some field →
      values[index]? = some v → HasOffset field.shape v offset →
      HasOffset (.container name fields) (.container values) offset
  | union {alternatives selector shape inner offset} :
      alternatives[selector.toNat]? = some (some shape) → HasOffset shape inner offset →
      HasOffset (.union alternatives) (.union selector (some inner)) offset

theorem hasOffset_scalar {shape : Shape} {v : Value} {offset : Nat} (h : shape.HasOffset v offset)
    (hv : (∃ b, v = .bool b) ∨ (∃ width n, v = .uint width n) ∨ (∃ contents, v = .bytes contents) ∨
      ∃ contents, v = .bits contents) : False := by
  have hnone : shape.parts v = [] := by
    obtain ⟨_, rfl⟩ | ⟨_, _, rfl⟩ | ⟨_, rfl⟩ | ⟨_, rfl⟩ := hv <;> cases shape <;> rfl
  cases h with
  | here hstarts => exact Part.startsFrom_nil (hnone ▸ hstarts)
  | vector | list | container | union => simp at hv

theorem hasOffset_vector {element : Shape} {length offset : Nat} {items : List Value} :
    HasOffset (.vector element length) (.list items) offset ↔
      (∃ item ∈ items, element.HasOffset item offset) ∨
        Part.StartsAt (parts (.vector element length) (.list items)) offset := by
  constructor
  · intro h
    cases h with
    | here hstarts => exact .inr hstarts
    | vector hitem h => exact .inl ⟨_, hitem, h⟩
  · rintro (⟨item, hitem, h⟩ | hstarts)
    · exact .vector hitem h
    · exact .here hstarts

theorem hasOffset_list {element : Shape} {max offset : Nat} {items : List Value} :
    HasOffset (.list element max) (.list items) offset ↔
      (∃ item ∈ items, element.HasOffset item offset) ∨
        Part.StartsAt (parts (.list element max) (.list items)) offset := by
  constructor
  · intro h
    cases h with
    | here hstarts => exact .inr hstarts
    | list hitem h => exact .inl ⟨_, hitem, h⟩
  · rintro (⟨item, hitem, h⟩ | hstarts)
    · exact .list hitem h
    · exact .here hstarts

/-- Some field's value has the offset. -/
def FieldHasOffset (fields : List (Field Shape)) (values : List Value) (offset : Nat) : Prop :=
  ∃ (index : Nat) (field : Field Shape) (v : Value), fields[index]? = some field ∧
    values[index]? = some v ∧ field.shape.HasOffset v offset

theorem fieldHasOffset_nil {offset : Nat} : ¬ FieldHasOffset [] [] offset := by
  rintro ⟨index, field, v, hfield, -⟩
  cases hfield

theorem fieldHasOffset_cons {field : Field Shape} {fields : List (Field Shape)} {v : Value}
    {values : List Value} {offset : Nat} :
    FieldHasOffset (field :: fields) (v :: values) offset ↔
      field.shape.HasOffset v offset ∨ FieldHasOffset fields values offset := by
  constructor
  · rintro ⟨index, other, u, hfield, hv, h⟩
    cases index with
    | zero =>
      cases hfield
      cases hv
      exact .inl h
    | succ index => exact .inr ⟨index, other, u, hfield, hv, h⟩
  · rintro (h | ⟨index, other, u, hfield, hv, h⟩)
    · exact ⟨0, field, v, rfl, rfl, h⟩
    · exact ⟨index + 1, other, u, hfield, hv, h⟩

theorem hasOffset_container {name : String} {fields : List (Field Shape)} {values : List Value}
    {offset : Nat} :
    HasOffset (.container name fields) (.container values) offset ↔
      FieldHasOffset fields values offset ∨
        Part.StartsAt (parts (.container name fields) (.container values)) offset := by
  constructor
  · intro h
    cases h with
    | here hstarts => exact .inr hstarts
    | container index hfield hv h => exact .inl ⟨index, _, _, hfield, hv, h⟩
  · rintro (⟨index, field, v, hfield, hv, h⟩ | hstarts)
    · exact .container index hfield hv h
    · exact .here hstarts

theorem hasOffset_union_none {alternatives : List (Option Shape)} {selector : UInt8}
    {offset : Nat} : ¬ HasOffset (.union alternatives) (.union selector none) offset := by
  intro h
  cases h with
  | here hstarts => exact Part.startsFrom_nil hstarts

theorem hasOffset_union_some {alternatives : List (Option Shape)} {selector : UInt8} {shape : Shape}
    (hshape : alternatives[selector.toNat]? = some (some shape)) {inner : Value} {offset : Nat} :
    HasOffset (.union alternatives) (.union selector (some inner)) offset ↔
      shape.HasOffset inner offset := by
  constructor
  · intro h
    cases h with
    | here hstarts => exact absurd hstarts Part.startsFrom_nil
    | union hother h =>
      cases hshape.symm.trans hother
      exact h
  · exact .union hshape

/-! ## The writer -/

/-- The bodies of a sequence are joined as its parts. -/
theorem join_items_addressed {element : Shape} {items : List Value} {bodies : List Bytes}
    (hencodes : List.Forall₂ (fun body item => element.Encodes item body) bodies items) :
    Addressed (Part.StartsAt (items.map fun item => ⟨element.fixedSize?, element.layout item⟩))
      (OffsetTable.join (bodies.map (Segment.mk element.isFixedSize))) := by
  have hbodies : bodies = items.map fun item => element.layout item := by
    rw [← List.forall₂_eq_eq_eq]
    exact List.forall₂_map_right_iff.2 (hencodes.imp fun _ _ hitem => hitem.eq_layout)
  have hsizes := forall₂_sizes hencodes fun _ _ hitem => hitem.length_eq
  have hparts : items.map (fun item => (⟨element.fixedSize?, element.layout item⟩ : Part))
      = bodies.map (Part.mk element.fixedSize?) := by
    rw [hbodies, List.map_map]
    rfl
  have hsegments : bodies.map (Segment.mk element.isFixedSize)
      = (bodies.map (Part.mk element.fixedSize?)).map Part.toSegment := by
    rw [List.map_map, ← isSome_fixedSize?]
    rfl
  rw [hparts, hsegments]
  refine Part.join_addressed fun part hpart => ?_
  obtain ⟨body, hbody, rfl⟩ := List.mem_map.1 hpart
  exact hsizes body hbody

theorem writeFields_addressed {fields : List (Field Shape)} {values : List Value}
    (h : List.Forall₂ (fun field v => Addressed (field.shape.HasOffset v) (field.shape.write v))
      fields values) :
    Addressed (FieldHasOffset fields values) (writeFields fields values) := by
  induction h with
  | nil => exact .ok_of_none fun _ => fieldHasOffset_nil
  | cons hv _ ih => exact (hv.bind fun body _ => ih.map).congr fun offset => fieldHasOffset_cons

/-- The fields of a record are joined as its parts. -/
theorem join_fields_addressed (name : String) {fields : List (Field Shape)} {values : List Value}
    {body : List Segment}
    (hcheck : List.Forall₂ (fun field v => field.shape.check v = .ok ()) fields values)
    (hbody : writeFields fields values = .ok body) :
    Addressed (Part.StartsAt (parts (.container name fields) (.container values)))
      (OffsetTable.join body) := by
  obtain ⟨bodies, hwrite, rfl⟩ := (writeFields_eq_ok hcheck.length_eq.symm).1 hbody
  have hencodes := fieldwise_encodes.2 ⟨hcheck, hwrite⟩
  have hlayout := hencodes.imp (S := fun shape part v => part = shape.layout v ∧
    ∀ size ∈ shape.fixedSize?, part.length = size) fun _ _ _ _ hv => ⟨hv.eq_layout, hv.length_eq⟩
  rw [segments_layoutFields (hlayout.imp fun _ _ _ _ hpart => hpart.1)]
  exact Part.join_addressed (fits_layoutFields hlayout)

theorem write_items_addressed {element : Shape} {items : List Value}
    (hcheck : ∀ item ∈ items, element.check item = .ok ())
    (ih : ∀ item ∈ items, Addressed (element.HasOffset item) (element.write item)) :
    Addressed (fun offset => (∃ item ∈ items, element.HasOffset item offset) ∨
        Part.StartsAt (items.map fun item => ⟨element.fixedSize?, element.layout item⟩) offset)
      (do
        let bodies ← items.mapM fun item => element.write item
        if element.isFixedSize then return bodies.flatten
        else OffsetTable.join (bodies.map (Segment.mk false))) := by
  refine (Addressed.mapM ih).bind fun bodies hbodies => ?_
  rw [concat_or_join]
  exact join_items_addressed (forall₂_encodes.2 ⟨hcheck, mapM_eq_ok.1 hbodies⟩)

/-- A well-formed value is written, unless one of its offsets is too large. -/
theorem write_addressed {shape : Shape} {v : Value} (hcheck : shape.check v = .ok ()) :
    Addressed (shape.HasOffset v) (shape.write v) := by
  induction shape generalizing v with
  | bool =>
    obtain ⟨b, rfl⟩ := check_bool.1 hcheck
    exact .ok_of_none fun _ h => hasOffset_scalar h (.inl ⟨b, rfl⟩)
  | uint width =>
    obtain ⟨n, rfl⟩ := check_uint.1 hcheck
    exact .ok_of_none fun _ h => hasOffset_scalar h (.inr (.inl ⟨width, n, rfl⟩))
  | byteVector length =>
    obtain ⟨contents, rfl, -⟩ := check_byteVector.1 hcheck
    exact .ok_of_none fun _ h => hasOffset_scalar h (.inr (.inr (.inl ⟨contents, rfl⟩)))
  | byteList max =>
    obtain ⟨contents, rfl, -⟩ := check_byteList.1 hcheck
    exact .ok_of_none fun _ h => hasOffset_scalar h (.inr (.inr (.inl ⟨contents, rfl⟩)))
  | bitVector length =>
    obtain ⟨contents, rfl, -⟩ := check_bitVector.1 hcheck
    exact .ok_of_none fun _ h => hasOffset_scalar h (.inr (.inr (.inr ⟨contents, rfl⟩)))
  | bitList max =>
    obtain ⟨contents, rfl, -⟩ := check_bitList.1 hcheck
    exact .ok_of_none fun _ h => hasOffset_scalar h (.inr (.inr (.inr ⟨contents, rfl⟩)))
  | vector element length ih =>
    obtain ⟨items, rfl, -, hitems⟩ := check_vector.1 hcheck
    have hwrite := write_items_addressed hitems fun item hitem => ih (hitems item hitem)
    exact hwrite.congr fun offset => hasOffset_vector
  | list element max ih =>
    obtain ⟨items, rfl, -, hitems⟩ := check_list.1 hcheck
    have hwrite := write_items_addressed hitems fun item hitem => ih (hitems item hitem)
    exact hwrite.congr fun offset => hasOffset_list
  | container name fields ih =>
    obtain ⟨values, rfl, hvalues⟩ := check_container.1 hcheck
    have hfields := writeFields_addressed
      (forall₂_imp_of_mem hvalues fun field hfield v hv => ih field hfield hv)
    have hwrite := hfields.bind fun body hbody => join_fields_addressed name hvalues hbody
    exact hwrite.congr fun offset => hasOffset_container
  | union alternatives ih =>
    obtain ⟨rfl, -⟩ | ⟨selector, shape, inner, rfl, hshape, hinner⟩ := check_union.1 hcheck
    · rw [write_union_none]
      exact .ok_of_none fun _ => hasOffset_union_none
    · rw [write, writeChosen_some hshape]
      have hwrite := (ih shape (List.mem_of_getElem? hshape) hinner).map (f := (selector :: ·))
      exact hwrite.congr fun offset => hasOffset_union_some hshape

end Shape

theorem encode_addressed {shape : Shape} {v : Value} (hcheck : shape.check v = .ok ()) :
    Addressed (shape.HasOffset v) (encode shape v) := by
  rw [encode, hcheck]
  exact Shape.write_addressed hcheck

end Ssz
