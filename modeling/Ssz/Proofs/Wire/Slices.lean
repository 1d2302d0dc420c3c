-- SUMMARY: The slice of the input that each node of a value is read from, and what it can hold.
import Ssz.Proofs.Wire.Encodes
import Ssz.Proofs.Wire.Tiling

/-!
# Slices

An input can claim any number of elements, but the reader only takes what the bytes
bear out. To say so of every node of a value, the reader is run here once more on
ranges of the whole input instead of on cut bytes, and it keeps each node with the
range that it read the node from. This is the same reader: it gives the same value
or the same error on every input. The bound for one node follows from its own slice
alone, so that it holds at any depth.
-/

namespace Ssz

open OffsetTable (Slot Span Sequence partSpans)

/-! ## Parts of a range -/

namespace OffsetTable

namespace Span

def length (span : Span) : Nat := span.stop - span.start

/-- The same range, counted from another start. -/
def shift (distance : Nat) (span : Span) : Span := ⟨distance + span.start, distance + span.stop⟩

/-- The ranges of the parts of a composite that stands in a range of the input. -/
def parts (input : Bytes) (span : Span) (slots : List Slot) : List Span :=
  (partSpans (span.read input) 0 slots).map (shift span.start)

variable {input : Bytes} {span : Span}

theorem length_read (h : span.Within input.length) : (span.read input).length = span.length := by
  obtain ⟨horder, hstop⟩ := h
  rw [read, List.length_take, List.length_drop, length]
  omega

/-- A range of a slice is a range of the input. -/
theorem read_shift {part : Span} (h : part.Within span.length) :
    (part.shift span.start).read input = part.read (span.read input) := by
  obtain ⟨horder, hstop⟩ := h
  have hpart : span.start + part.stop - (span.start + part.start) = part.stop - part.start := by
    omega
  have hmin : min (part.stop - part.start) (span.length - part.start) = part.stop - part.start := by
    omega
  simp only [read, shift, hpart, List.drop_take, List.take_take, List.drop_drop]
  rw [length] at hmin
  rw [hmin]

theorem within_shift {part : Span} (hspan : span.Within input.length)
    (h : part.Within span.length) : (part.shift span.start).Within input.length := by
  obtain ⟨hstart, hstop⟩ := hspan
  obtain ⟨hpart, hlength⟩ := h
  rw [length] at hlength
  constructor <;> simp only [shift] <;> omega

/-- A composite is cut into what stands in the ranges of its parts. -/
theorem parts_of_split (hspan : span.Within input.length) {slots : List Slot} {parts : List Bytes}
    (h : split slots (span.read input) = .ok parts) :
    parts = (span.parts input slots).map (read input) ∧
      ∀ part ∈ span.parts input slots, part.Within input.length := by
  have htiled := tiled_of_split h
  have hwithin : ∀ part ∈ partSpans (span.read input) 0 slots, part.Within span.length :=
    fun part hpart => length_read hspan ▸ htiled.within part hpart
  constructor
  · rw [htiled.ranges, Span.parts, List.map_map]
    exact List.map_congr_left fun part hpart => (read_shift (hwithin part hpart)).symm
  · intro part hpart
    obtain ⟨inner, hinner, rfl⟩ := List.mem_map.1 hpart
    exact within_shift hspan (hwithin inner hinner)

end Span

/-- Elements of a fixed size are what splitting by that size gives. -/
theorem split_pieces {size count : Nat} {bytes : Bytes} (h : bytes.length = size * count) :
    split (List.replicate (pieces size count bytes).length (some size)) bytes
      = .ok (pieces size count bytes) := by
  obtain ⟨-, hsizes, hflatten⟩ := pieces_eq_iff.1 ⟨h, rfl⟩
  exact split_replicate_eq_ok.2 ⟨rfl, sequence_fixed.2 ⟨hsizes, hflatten⟩⟩

theorem split_listParts {slot : Slot} {max : Nat} {bytes : Bytes} {parts : List Bytes}
    (h : listParts slot max bytes = .ok parts) :
    split (List.replicate parts.length slot) bytes = .ok parts :=
  split_replicate_eq_ok.2 ⟨rfl, (listParts_eq_ok.1 h).2.2⟩

end OffsetTable

/-! ## Nodes -/

/-- A value in a tree of values, with its shape. -/
structure Node where
  shape : Shape
  value : Value

/-- A node, and the range of the input that it was read from. -/
structure Slice where
  node : Node
  span : Span

/-- A value that was read, and the slices of all its nodes. -/
structure Located where
  value : Value
  slices : List Slice

/-- A node above those of its parts. -/
def Located.above (shape : Shape) (span : Span) (v : Value) (below : List Slice) : Located :=
  ⟨v, ⟨⟨shape, v⟩, span⟩ :: below⟩

namespace Shape

mutual

/-- All nodes of a value, each before its parts. -/
def nodes : Shape → Value → List Node
  | .vector element length, .list items =>
    ⟨.vector element length, .list items⟩ :: items.flatMap fun item => element.nodes item
  | .list element max, .list items =>
    ⟨.list element max, .list items⟩ :: items.flatMap fun item => element.nodes item
  | .container name fields, .container values =>
    ⟨.container name fields, .container values⟩ :: fieldNodes fields values
  | .union alternatives, .union selector (some inner) =>
    ⟨.union alternatives, .union selector (some inner)⟩
      :: chosenNodes alternatives selector.toNat inner
  | shape, v => [⟨shape, v⟩]
termination_by structural shape => shape

def fieldNodes : List (Field Shape) → List Value → List Node
  | ⟨_, _, shape⟩ :: fields, v :: values => shape.nodes v ++ fieldNodes fields values
  | _, _ => []
termination_by structural fields => fields

def chosenNodes : (alternatives : List (Option Shape)) → (index : Nat) → Value → List Node
  | some shape :: _, 0, inner => shape.nodes inner
  | _ :: alternatives, index + 1, inner => chosenNodes alternatives index inner
  | _, _, _ => []
termination_by structural alternatives => alternatives

end

/-! ## Reading from ranges -/

mutual

/-- Read a value as `decode` does, each part of it from its range of the input. -/
def locate (input : Bytes) : Shape → Span → Except DecodeError Located
  | .vector element length, span => do
    let parts ← match element.fixedSize? with
      | some size => do
        expectLength (.vector element length) (size * length) (span.read input)
        pure (pieces size length (span.read input))
      | none => malformed (OffsetTable.split (List.replicate length none) (span.read input))
    let items ← (span.parts input (List.replicate parts.length element.fixedSize?)).mapM
      fun part => element.locate input part
    return .above (.vector element length) span (.list (items.map Located.value))
      (items.flatMap Located.slices)
  | .list element max, span => do
    let parts ← malformed (listParts element.fixedSize? max (span.read input))
    let items ← (span.parts input (List.replicate parts.length element.fixedSize?)).mapM
      fun part => element.locate input part
    return .above (.list element max) span (.list (items.map Located.value))
      (items.flatMap Located.slices)
  | .container name fields, span => do
    if let some size := fieldsFixedSize? fields then
      expectLength (.container name fields) size (span.read input)
    let _ ← malformed (OffsetTable.split (slots fields) (span.read input))
    let values ← locateFields input fields (span.parts input (slots fields))
    return .above (.container name fields) span (.container (values.map Located.value))
      (values.flatMap Located.slices)
  | .union alternatives, span =>
    match span.read input with
    | [] => .error (.malformed .emptyUnion)
    | selector :: _ => do
      let inner ← locateChosen input selector alternatives selector.toNat
        ⟨span.start + 1, span.stop⟩
      return .above (.union alternatives) span (.union selector (inner.map Located.value))
        (inner.elim [] Located.slices)
  | shape, span => do return .above shape span (← shape.decode (span.read input)) []
termination_by structural shape => shape

def locateFields (input : Bytes) :
    List (Field Shape) → List Span → Except DecodeError (List Located)
  | ⟨_, _, shape⟩ :: fields, part :: parts => do
    let v ← shape.locate input part
    return v :: (← locateFields input fields parts)
  | _, _ => .ok []
termination_by structural fields => fields

def locateChosen (input : Bytes) (selector : UInt8) :
    (alternatives : List (Option Shape)) → (index : Nat) → Span →
      Except DecodeError (Option Located)
  | some shape :: _, 0, payload => do return some (← shape.locate input payload)
  | none :: _, 0, payload =>
    if selector ≠ 0 then .error (.malformed (.invalidSelector selector))
    else if (payload.read input).isEmpty then .ok none
    else .error (.malformed (.unionPayload (payload.read input).length))
  | _ :: alternatives, index + 1, payload => locateChosen input selector alternatives index payload
  | [], _, _ => .error (.malformed (.invalidSelector selector))
termination_by structural alternatives => alternatives

end

/-! ## The same reader -/

section Agreement

variable {input : Bytes} {span : Span}

/-- A sequence is read from the ranges of its parts as it is from the parts. -/
theorem value_items {element : Shape} (hspan : span.Within input.length) {parts : List Bytes}
    (hsplit : OffsetTable.split (List.replicate parts.length element.fixedSize?) (span.read input)
      = .ok parts)
    (h : ∀ {part : Span}, part.Within input.length →
      Located.value <$> element.locate input part = element.decode (part.read input))
    (shape : Shape) :
    Located.value <$> (do
      let items ← (span.parts input (List.replicate parts.length element.fixedSize?)).mapM
        fun part => element.locate input part
      return .above shape span (.list (items.map Located.value)) (items.flatMap Located.slices))
      = do return .list (← parts.mapM fun part => element.decode part) := by
  obtain ⟨hread, hwithin⟩ := Span.parts_of_split hspan hsplit
  have hitems : parts.mapM (fun part => element.decode part)
      = (span.parts input (List.replicate parts.length element.fixedSize?)).mapM
        fun part => Located.value <$> element.locate input part := by
    conv_lhs => rw [hread, List.mapM_map]
    exact mapM_congr fun part hpart => (h (hwithin part hpart)).symm
  rw [hitems, ← map_mapM]
  simp only [map_bind, map_pure, bind_map_left]
  rfl

theorem value_locateFields {fields : List (Field Shape)} {spans : List Span}
    (hfields : ∀ field ∈ fields, ∀ {part : Span}, part.Within input.length →
      Located.value <$> field.shape.locate input part = field.shape.decode (part.read input))
    (hspans : ∀ part ∈ spans, part.Within input.length) :
    List.map Located.value <$> locateFields input fields spans
      = decodeFields fields (spans.map (Span.read input)) := by
  induction fields generalizing spans with
  | nil => cases spans <;> rfl
  | cons field fields ih =>
    cases spans with
    | nil => rfl
    | cons part spans =>
      obtain ⟨hpart, hrest⟩ := List.forall_mem_cons.1 hspans
      have hhead := hfields field List.mem_cons_self hpart
      have htail := ih (fun other hother => hfields other (List.mem_cons_of_mem _ hother)) hrest
      rw [locateFields, List.map_cons, decodeFields, ← hhead, ← htail]
      simp

theorem value_locateChosen {selector : UInt8} {alternatives : List (Option Shape)} {index : Nat}
    {payload : Span}
    (h : ∀ shape, some shape ∈ alternatives →
      Located.value <$> shape.locate input payload = shape.decode (payload.read input)) :
    Option.map Located.value <$> locateChosen input selector alternatives index payload
      = decodeChosen selector alternatives index (payload.read input) := by
  induction alternatives generalizing index with
  | nil => rfl
  | cons choice alternatives ih =>
    cases index with
    | succ index =>
      have hrest := @ih index fun shape hshape => h shape (List.mem_cons_of_mem _ hshape)
      cases choice <;> exact hrest
    | zero =>
      cases choice with
      | some shape =>
        rw [locateChosen, decodeChosen, ← h shape List.mem_cons_self]
        simp
      | none =>
        unfold locateChosen decodeChosen
        split
        · rfl
        · split <;> rfl

theorem value_container {fields : List (Field Shape)} (name : String)
    (hspan : span.Within input.length)
    (h : ∀ field ∈ fields, ∀ {part : Span}, part.Within input.length →
      Located.value <$> field.shape.locate input part = field.shape.decode (part.read input)) :
    Located.value <$> (do
      let _ ← malformed (OffsetTable.split (slots fields) (span.read input))
      let values ← locateFields input fields (span.parts input (slots fields))
      return .above (.container name fields) span (.container (values.map Located.value))
        (values.flatMap Located.slices))
      = do
        let parts ← malformed (OffsetTable.split (slots fields) (span.read input))
        return .container (← decodeFields fields parts) := by
  refine map_bind_congr fun parts hparts => ?_
  obtain ⟨hread, hwithin⟩ := Span.parts_of_split hspan (malformed_eq_ok.1 hparts)
  conv_rhs => rw [hread]
  rw [← value_locateFields h hwithin]
  simp only [map_bind, map_pure, bind_map_left]
  rfl

/-- What follows the selector of a union. -/
theorem payload_of_read (hspan : span.Within input.length) {selector : UInt8} {payload : Bytes}
    (h : span.read input = selector :: payload) :
    Span.Within input.length ⟨span.start + 1, span.stop⟩ ∧
      Span.read input ⟨span.start + 1, span.stop⟩ = payload := by
  have hlength := Span.length_read hspan
  rw [h, List.length_cons, Span.length] at hlength
  refine ⟨⟨by simp only; omega, hspan.2⟩, ?_⟩
  calc Span.read input ⟨span.start + 1, span.stop⟩
    _ = (span.read input).drop 1 := by
      simp only [Span.read, List.drop_take, List.drop_drop, Nat.sub_sub]
    _ = payload := by rw [h, List.drop_succ_cons, List.drop_zero]

/-- The value, or the error, is that of `decode`. -/
theorem value_locate (shape : Shape) (hspan : span.Within input.length) :
    Located.value <$> shape.locate input span = shape.decode (span.read input) := by
  induction shape generalizing span with
  | vector element length ih =>
    unfold locate decode
    cases hsize : element.fixedSize? with
    | some size =>
      refine map_bind_congr fun _ hlength => ?_
      have hsplit := OffsetTable.split_pieces (expectLength_eq_ok.1 hlength)
      rw [← hsize] at hsplit
      have hitems := value_items hspan hsplit ih (.vector element length)
      rw [hsize] at hitems
      exact hitems
    | none =>
      refine map_bind_congr fun parts hparts => ?_
      have hsplit := malformed_eq_ok.1 hparts
      obtain ⟨rfl, -⟩ := OffsetTable.split_replicate_eq_ok.1 hsplit
      rw [← hsize] at hsplit
      have hitems := value_items hspan hsplit ih (.vector element parts.length)
      rw [hsize] at hitems
      exact hitems
  | list element max ih =>
    unfold locate decode
    refine map_bind_congr fun parts hparts => ?_
    exact value_items hspan (OffsetTable.split_listParts (malformed_eq_ok.1 hparts)) ih _
  | container name fields ih =>
    have hfields := value_container name hspan ih
    unfold locate decode
    cases fieldsFixedSize? fields with
    | none => exact hfields
    | some size => exact map_bind_congr fun _ _ => hfields
  | union alternatives ih =>
    unfold locate decode
    cases hread : span.read input with
    | nil => rfl
    | cons selector payload =>
      obtain ⟨hwithin, hpayload⟩ := payload_of_read hspan hread
      have hinner : Option.map Located.value <$> locateChosen input selector alternatives
          selector.toNat ⟨span.start + 1, span.stop⟩
          = decodeChosen selector alternatives selector.toNat payload := by
        rw [← hpayload]
        exact value_locateChosen fun shape hshape => ih shape hshape hwithin
      dsimp only
      rw [← hinner]
      simp only [map_bind, map_pure, bind_map_left]
      rfl
  | bool | uint | byteVector | byteList | bitVector | bitList =>
    unfold locate
    rw [map_bind]
    exact bind_pure _

end Agreement

end Shape

/-! ## What the slices hold -/

/-- The slice lies within the input, and what stands there is read as the node. -/
structure Slice.Reads (input : Bytes) (slice : Slice) : Prop where
  within : slice.span.Within input.length
  decode : decode slice.node.shape (slice.span.read input) = .ok slice.node.value

/-- There is one slice for each node of the value, in their order, and it is read as the node. -/
structure Located.Covers (input : Bytes) (shape : Shape) (located : Located) : Prop where
  nodes : located.slices.map Slice.node = shape.nodes located.value
  slices : ∀ slice ∈ located.slices, slice.Reads input

namespace Shape

section Coverage

variable {input : Bytes} {span : Span}

theorem decode_of_locate {shape : Shape} {located : Located} (hspan : span.Within input.length)
    (h : shape.locate input span = .ok located) :
    shape.decode (span.read input) = .ok located.value := by
  rw [← value_locate shape hspan, h]
  rfl

theorem covers_above {shape : Shape} {v : Value} {below : List Slice}
    (hspan : span.Within input.length)
    (h : shape.locate input span = .ok (.above shape span v below))
    (hnodes : shape.nodes v = ⟨shape, v⟩ :: below.map Slice.node)
    (hbelow : ∀ slice ∈ below, slice.Reads input) :
    Located.Covers input shape (.above shape span v below) :=
  ⟨hnodes.symm, List.forall_mem_cons.2 ⟨⟨hspan, decode_of_locate hspan h⟩, hbelow⟩⟩

theorem locate_vector {element : Shape} {length : Nat} {located : Located}
    (hspan : span.Within input.length)
    (h : (vector element length).locate input span = .ok located) :
    ∃ spans items, (∀ part ∈ spans, part.Within input.length) ∧
      List.Forall₂ (fun part item => element.locate input part = .ok item) spans items ∧
      located = .above (.vector element length) span (.list (items.map Located.value))
        (items.flatMap Located.slices) := by
  unfold locate at h
  cases hsize : element.fixedSize? with
  | some size =>
    simp only [hsize, bind_eq_ok, exists_unit, pure_eq_ok, mapM_eq_ok, expectLength_eq_ok] at h
    obtain ⟨hlength, _, rfl, items, hitems, rfl⟩ := h
    obtain ⟨-, hwithin⟩ := Span.parts_of_split hspan (OffsetTable.split_pieces hlength)
    exact ⟨_, items, hwithin, hitems, rfl⟩
  | none =>
    simp only [hsize, bind_eq_ok, pure_eq_ok, mapM_eq_ok, malformed_eq_ok] at h
    obtain ⟨parts, hsplit, items, hitems, rfl⟩ := h
    rw [(OffsetTable.split_replicate_eq_ok.1 hsplit).1] at hitems
    obtain ⟨-, hwithin⟩ := Span.parts_of_split hspan hsplit
    exact ⟨_, items, hwithin, hitems, rfl⟩

theorem locate_list {element : Shape} {max : Nat} {located : Located}
    (hspan : span.Within input.length)
    (h : (list element max).locate input span = .ok located) :
    ∃ spans items, (∀ part ∈ spans, part.Within input.length) ∧
      List.Forall₂ (fun part item => element.locate input part = .ok item) spans items ∧
      located = .above (.list element max) span (.list (items.map Located.value))
        (items.flatMap Located.slices) := by
  simp only [locate, bind_eq_ok, pure_eq_ok, mapM_eq_ok, malformed_eq_ok] at h
  obtain ⟨parts, hparts, items, hitems, rfl⟩ := h
  obtain ⟨-, hwithin⟩ := Span.parts_of_split hspan (OffsetTable.split_listParts hparts)
  exact ⟨_, items, hwithin, hitems, rfl⟩

theorem locate_container {name : String} {fields : List (Field Shape)} {located : Located}
    (hspan : span.Within input.length)
    (h : (container name fields).locate input span = .ok located) :
    ∃ spans values, (∀ part ∈ spans, part.Within input.length) ∧
      locateFields input fields spans = .ok values ∧
      located = .above (.container name fields) span (.container (values.map Located.value))
        (values.flatMap Located.slices) := by
  have hopen : ∃ parts, OffsetTable.split (slots fields) (span.read input) = .ok parts ∧
      ∃ values, locateFields input fields (span.parts input (slots fields)) = .ok values ∧
        .above (.container name fields) span (.container (values.map Located.value))
          (values.flatMap Located.slices) = located := by
    unfold locate at h
    cases hsize : fieldsFixedSize? fields with
    | some size =>
      simp only [hsize, bind_eq_ok, exists_unit, pure_eq_ok, malformed_eq_ok] at h
      exact h.2
    | none => simpa only [hsize, bind_eq_ok, pure_eq_ok, malformed_eq_ok] using h
  obtain ⟨parts, hsplit, values, hvalues, rfl⟩ := hopen
  obtain ⟨-, hwithin⟩ := Span.parts_of_split hspan hsplit
  exact ⟨_, values, hwithin, hvalues, rfl⟩

theorem covers_items {element : Shape} {spans : List Span} {items : List Located}
    (hspans : ∀ part ∈ spans, part.Within input.length)
    (hitems : List.Forall₂ (fun part item => element.locate input part = .ok item) spans items)
    (h : ∀ {part : Span} {item : Located}, part.Within input.length →
      element.locate input part = .ok item → item.Covers input element) :
    (items.map Located.value).flatMap element.nodes
        = (items.flatMap Located.slices).map Slice.node ∧
      ∀ slice ∈ items.flatMap Located.slices, slice.Reads input := by
  have hboth := ((List.forall₂_and_left _ _).2 ⟨hspans, hitems⟩).imp
    fun part item ⟨hpart, hitem⟩ => And.intro (h hpart hitem) hitem
  have hcovers : ∀ item ∈ items, item.Covers input element :=
    ((List.forall₂_and_left _ _).1 hboth.flip).1
  constructor
  · rw [List.map_flatMap, List.flatMap_map]
    exact List.flatMap_congr fun item hitem => (hcovers item hitem).nodes.symm
  · intro slice hslice
    obtain ⟨item, hitem, hslice⟩ := List.mem_flatMap.1 hslice
    exact (hcovers item hitem).slices slice hslice

theorem covers_fields {fields : List (Field Shape)} {spans : List Span} {values : List Located}
    (hspans : ∀ part ∈ spans, part.Within input.length)
    (hvalues : locateFields input fields spans = .ok values)
    (h : ∀ field ∈ fields, ∀ {part : Span} {v : Located}, part.Within input.length →
      field.shape.locate input part = .ok v → v.Covers input field.shape) :
    fieldNodes fields (values.map Located.value)
        = (values.flatMap Located.slices).map Slice.node ∧
      ∀ slice ∈ values.flatMap Located.slices, slice.Reads input := by
  induction fields generalizing spans values with
  | nil =>
    cases hvalues
    exact ⟨rfl, nofun⟩
  | cons field fields ih =>
    cases spans with
    | nil =>
      cases hvalues
      exact ⟨rfl, nofun⟩
    | cons part spans =>
      obtain ⟨hpart, hrest⟩ := List.forall_mem_cons.1 hspans
      simp only [locateFields, bind_eq_ok, pure_eq_ok] at hvalues
      obtain ⟨v, hv, values, hvalues, rfl⟩ := hvalues
      have hhead := h field List.mem_cons_self hpart hv
      obtain ⟨hnodes, hslices⟩ := ih hrest hvalues fun other hother =>
        h other (List.mem_cons_of_mem _ hother)
      constructor
      · rw [List.map_cons, fieldNodes, hnodes, ← hhead.nodes, List.flatMap_cons, List.map_append]
      · rw [List.flatMap_cons]
        exact List.forall_mem_append.2 ⟨hhead.slices, hslices⟩

theorem chosenNodes_eq {alternatives : List (Option Shape)} {index : Nat} {shape : Shape}
    (hshape : alternatives[index]? = some (some shape)) (inner : Value) :
    chosenNodes alternatives index inner = shape.nodes inner := by
  refine chosen_induction hshape ?_ ?_
  · intro rest
    rfl
  · intro choice rest index ih
    cases choice <;> exact ih

theorem locateChosen_eq_ok {selector : UInt8} {alternatives : List (Option Shape)} {index : Nat}
    {payload : Span} {inner : Option Located}
    (h : locateChosen input selector alternatives index payload = .ok inner) :
    inner = none ∨ ∃ shape v, alternatives[index]? = some (some shape) ∧
      shape.locate input payload = .ok v ∧ inner = some v := by
  induction alternatives generalizing index with
  | nil => cases h
  | cons choice alternatives ih =>
    cases index with
    | succ index =>
      cases choice <;> exact ih h
    | zero =>
      cases choice with
      | some shape =>
        simp only [locateChosen, bind_eq_ok, pure_eq_ok] at h
        obtain ⟨v, hv, rfl⟩ := h
        exact .inr ⟨shape, v, rfl, hv, rfl⟩
      | none =>
        simp only [locateChosen] at h
        split at h
        · cases h
        · split at h
          · cases h
            exact .inl rfl
          · cases h

theorem locate_union {alternatives : List (Option Shape)} {located : Located}
    (hspan : span.Within input.length)
    (h : (union alternatives).locate input span = .ok located) :
    ∃ selector, located = .above (.union alternatives) span (.union selector none) [] ∨
      ∃ shape payload v, alternatives[selector.toNat]? = some (some shape) ∧
        payload.Within input.length ∧ shape.locate input payload = .ok v ∧
        located = .above (.union alternatives) span (.union selector (some v.value)) v.slices := by
  unfold locate at h
  cases hread : span.read input with
  | nil =>
    rw [hread] at h
    cases h
  | cons selector payload =>
    simp only [hread, bind_eq_ok, pure_eq_ok] at h
    obtain ⟨inner, hinner, rfl⟩ := h
    obtain rfl | ⟨shape, v, hshape, hv, rfl⟩ := locateChosen_eq_ok hinner
    · exact ⟨selector, .inl rfl⟩
    · exact ⟨selector, .inr ⟨shape, _, v, hshape, (payload_of_read hspan hread).1, hv, rfl⟩⟩

/-- Each node of what is read has its slice. -/
theorem covers_of_locate {shape : Shape} {located : Located} (hspan : span.Within input.length)
    (h : shape.locate input span = .ok located) : located.Covers input shape := by
  induction shape generalizing span located with
  | vector element length ih =>
    obtain ⟨spans, items, hwithin, hitems, rfl⟩ := locate_vector hspan h
    obtain ⟨hnodes, hslices⟩ := covers_items hwithin hitems ih
    exact covers_above hspan h (congrArg _ hnodes) hslices
  | list element max ih =>
    obtain ⟨spans, items, hwithin, hitems, rfl⟩ := locate_list hspan h
    obtain ⟨hnodes, hslices⟩ := covers_items hwithin hitems ih
    exact covers_above hspan h (congrArg _ hnodes) hslices
  | container name fields ih =>
    obtain ⟨spans, values, hwithin, hvalues, rfl⟩ := locate_container hspan h
    obtain ⟨hnodes, hslices⟩ := covers_fields hwithin hvalues ih
    exact covers_above hspan h (congrArg _ hnodes) hslices
  | union alternatives ih =>
    obtain ⟨selector, rfl | ⟨shape, payload, v, hshape, hwithin, hv, rfl⟩⟩ := locate_union hspan h
    · exact covers_above hspan h rfl nofun
    · have hinner := ih shape (List.mem_of_getElem? hshape) hwithin hv
      have hnodes := (chosenNodes_eq hshape v.value).trans hinner.nodes.symm
      exact covers_above hspan h (congrArg _ hnodes) hinner.slices
  | bool | uint | byteVector | byteList | bitVector | bitList =>
    simp only [locate, bind_eq_ok, pure_eq_ok] at h
    obtain ⟨v, hv, rfl⟩ := h
    refine covers_above hspan ?_ rfl nofun
    simp only [locate, hv]
    rfl

end Coverage

end Shape

/-! ## What a slice can hold -/

/-- A node that is read from `length` bytes holds no more than these bear out, whatever maximum its
    shape has. -/
structure Node.Bounded (length : Nat) (node : Node) : Prop where
  list : ∀ element max items, node = ⟨.list element max, .list items⟩ → items.length ≤ length
  offsets : ∀ element max items, node = ⟨.list element max, .list items⟩ →
    element.fixedSize? = none → items.length ≤ length / 4
  byteList : ∀ max contents, node = ⟨.byteList max, .bytes contents⟩ → contents.length ≤ length
  bitList : ∀ max bits, node = ⟨.bitList max, .bits bits⟩ → bits.length < 8 * length

theorem length_of_sequence {slot : Slot} {parts : List Bytes} {bytes : Bytes}
    (h : Sequence slot parts bytes) (hzero : slot = some 0 → parts = []) :
    parts.length ≤ bytes.length ∧ (slot = none → parts.length ≤ bytes.length / 4) := by
  cases slot with
  | some size =>
    refine ⟨?_, nofun⟩
    obtain ⟨hsizes, rfl⟩ := OffsetTable.sequence_fixed.1 h
    rw [length_flatten_of_forall hsizes]
    cases size with
    | zero => simp [hzero rfl]
    | succ size => exact Nat.le_mul_of_pos_left _ (Nat.succ_pos size)
  | none =>
    have hoffsets : 4 * parts.length ≤ bytes.length := by
      by_cases hparts : parts = []
      · simp [hparts]
      · exact (h.firstOffset hparts).1
    exact ⟨by omega, fun _ => by omega⟩

theorem length_list_le {element : Shape} {max : Nat} {bytes : Bytes} {items : List Value}
    (h : decode (.list element max) bytes = .ok (.list items)) :
    items.length ≤ bytes.length ∧
      (element.fixedSize? = none → items.length ≤ bytes.length / 4) := by
  obtain ⟨parts, values, -, hzero, hsequence, hvalues, hv⟩ := Shape.decode_list.1 h
  cases hv
  rw [← hvalues.length_eq]
  exact length_of_sequence hsequence hzero

theorem bounded_of_reads {input : Bytes} {slice : Slice} (h : slice.Reads input) :
    slice.node.Bounded slice.span.length := by
  have hlength := OffsetTable.Span.length_read h.within
  have hdecode := h.decode
  obtain ⟨node, span⟩ := slice
  constructor
  · rintro element max items rfl
    exact hlength ▸ (length_list_le hdecode).1
  · rintro element max items rfl hsize
    exact hlength ▸ (length_list_le hdecode).2 hsize
  · rintro max contents rfl
    obtain ⟨hcontents, -⟩ := Shape.encodes_byteList.1 (Shape.decode_byteList.1 hdecode)
    exact Nat.le_of_eq ((congrArg List.length (Value.bytes.inj hcontents)).trans hlength)
  · rintro max bits rfl
    obtain ⟨_, hbits, hwire, -⟩ := Shape.encodes_bitList.1 (Shape.decode_bitList.1 hdecode)
    cases hbits
    have htotal := bits.length_toWire
    rw [hwire, hlength] at htotal
    dsimp only at htotal ⊢
    omega

/-! ## Every input -/

/-- Reading an input from its ranges gives the value, with one slice for each node of it. Each slice
    lies within the input and bounds what its node holds, so no list of the value has more elements
    than the input has bytes. -/
theorem bounded_of_decode {shape : Shape} {bytes : Bytes} {v : Value}
    (h : decode shape bytes = .ok v) :
    ∃ slices, shape.locate bytes ⟨0, bytes.length⟩ = .ok ⟨v, slices⟩ ∧
      slices.map Slice.node = shape.nodes v ∧
      (∀ slice ∈ slices, slice.Reads bytes ∧ slice.node.Bounded slice.span.length) ∧
      ∀ element max items, ⟨.list element max, .list items⟩ ∈ shape.nodes v →
        items.length ≤ bytes.length := by
  have hwhole : Span.Within bytes.length ⟨0, bytes.length⟩ := ⟨Nat.zero_le _, Nat.le_refl _⟩
  have hread : Span.read bytes ⟨0, bytes.length⟩ = bytes := List.take_length
  have hlocate := shape.value_locate hwhole
  rw [hread] at hlocate
  obtain ⟨⟨_, slices⟩, hrun, rfl⟩ := map_eq_ok.1 (hlocate.trans h)
  obtain ⟨hnodes, hslices⟩ := Shape.covers_of_locate hwhole hrun
  refine ⟨slices, hrun, hnodes, fun slice hslice => ?_, fun element max items hmem => ?_⟩
  · exact ⟨hslices slice hslice, bounded_of_reads (hslices slice hslice)⟩
  · rw [← hnodes] at hmem
    obtain ⟨slice, hslice, hnode⟩ := List.mem_map.1 hmem
    have hitems := (bounded_of_reads (hslices slice hslice)).list element max items hnode
    obtain ⟨-, hstop⟩ := (hslices slice hslice).within
    rw [OffsetTable.Span.length] at hitems
    omega

/-- Two names behind their offsets, no ticks, since these take no bytes, and three flags. -/
theorem bounded_of_decode_record :
    let shape : Shape := .container "record" [⟨"names", "names", .list (.byteList 9) 1000000⟩,
      ⟨"ticks", "ticks", .list (.container "tick" []) 1000000⟩,
      ⟨"flags", "flags", .bitList 1000000⟩]
    let bytes : Bytes :=
      [12, 0, 0, 0, 22, 0, 0, 0, 22, 0, 0, 0, 8, 0, 0, 0, 9, 0, 0, 0, 7, 5, 13]
    let v : Value := .container
      [.list [.bytes [7], .bytes [5]], .list [], .bits (.ofList [true, false, true])]
    decode shape bytes = .ok v ∧
      ∃ slices, shape.locate bytes ⟨0, 23⟩ = .ok ⟨v, slices⟩ ∧
        (slices.map fun slice => (slice.span.start, slice.span.stop))
          = [(0, 23), (12, 22), (20, 21), (21, 22), (22, 22), (22, 23)] ∧
        ∀ slice ∈ slices, slice.node.Bounded slice.span.length := by
  intro shape bytes v
  have hdecode : decode shape bytes = .ok v := by decide +kernel
  obtain ⟨slices, hlocate, -, hslices, -⟩ := bounded_of_decode hdecode
  refine ⟨hdecode, slices, hlocate, ?_, fun slice hslice => (hslices slice hslice).2⟩
  have hspans : (fun located : Located => located.slices.map fun slice =>
      (slice.span.start, slice.span.stop)) <$> shape.locate bytes ⟨0, 23⟩
        = .ok [(0, 23), (12, 22), (20, 21), (21, 22), (22, 22), (22, 23)] := by
    decide +kernel
  have hrun : shape.locate bytes ⟨0, 23⟩ = .ok ⟨v, slices⟩ := hlocate
  rw [hrun] at hspans
  exact Except.ok.inj hspans

end Ssz
