-- SUMMARY: Whatever pair of a shape and a value is drawn makes the round trips over wire and text.
import Ssz.Proofs.Sampling.Values
import Ssz.Proofs.Text.Nesting
import Ssz.Proofs.Text.Yaml
import Ssz.Proofs.Wire.RoundTrip
import Ssz.Proofs.Wire.Overflow
import Ssz.Proofs.Wire.Sizes

/-!
# Shapes that are drawn

The round trips ask something of a shape and its value: sizes and offsets that fit
their words, no list whose elements take no bytes, names that are distinct and read
as plain words, and a tree that does not nest too deeply. Each of these is shown of
the shapes that are drawn by going over the ways to draw one, with a bound for each
depth where there is something to count.
-/

namespace Ssz.Sampling

open Text

/-! ## Ranges and names -/

theorem mem_span {first last n : Nat} : n ∈ span first last ↔ first ≤ n ∧ n ≤ last := by
  simp only [span, List.mem_map, List.mem_range]
  constructor
  · rintro ⟨k, hk, rfl⟩
    omega
  · rintro ⟨hfirst, hlast⟩
    exact ⟨n - first, by omega, by omega⟩

/-- The fields of a container that is drawn. -/
def fieldsOf (shapes : List Shape) : List (Field Shape) :=
  List.zipWith (fun name shape => ⟨name, name, shape⟩) fieldNames shapes

theorem of_mem_fieldsOf {shapes : List Shape} {field : Field Shape}
    (h : field ∈ fieldsOf shapes) : field.name ∈ fieldNames ∧ field.shape ∈ shapes := by
  rw [fieldsOf, ← List.map_uncurry_zip_eq_zipWith] at h
  obtain ⟨⟨name, shape⟩, hmem, rfl⟩ := List.mem_map.1 h
  exact List.of_mem_zip hmem

theorem names_zipWith (names : List String) (shapes : List Shape) :
    (List.zipWith (fun name shape => (⟨name, name, shape⟩ : Field Shape)) names shapes).map
      Field.name = names.take shapes.length := by
  induction names generalizing shapes with
  | nil => simp
  | cons name names ih =>
    cases shapes with
    | nil => rfl
    | cons shape shapes => simp [ih]

theorem nodup_names_fieldsOf (shapes : List Shape) : ((fieldsOf shapes).map Field.name).Nodup := by
  rw [fieldsOf, names_zipWith]
  exact (by decide : fieldNames.Nodup).sublist (List.take_sublist _ _)

theorem length_fieldsOf_le (shapes : List Shape) : (fieldsOf shapes).length ≤ 4 := by
  rw [fieldsOf, List.length_zipWith]
  exact Nat.min_le_left _ _

theorem mem_of_some_mem {shapes : List Shape} {shape : Shape}
    (h : some shape ∈ none :: shapes.map some) : shape ∈ shapes := by
  simpa using h

/-! ## Parts -/

/-- Whatever is drawn down to a depth is drawn one level deeper as well. -/
theorem Drawn.succ {depth : Nat} {shape : Shape} (h : Drawn depth shape) :
    Drawn (depth + 1) shape := by
  induction h with
  | bool => exact .bool
  | uint hwidth => exact .uint hwidth
  | byteVector hlength => exact .byteVector hlength
  | byteList hcapacity => exact .byteList hcapacity
  | bitVector hlength => exact .bitVector hlength
  | bitList hcapacity => exact .bitList hcapacity
  | vector _ hlength ih => exact .vector ih hlength
  | list _ hcapacity ih => exact .list ih hcapacity
  | container _ hcount ih => exact .container ih hcount
  | union _ hcount ih => exact .union ih hcount

/-- The parts of a shape that is drawn are drawn as well. -/
theorem Drawn.part {depth : Nat} {part shape : Shape} (hpart : part.OccursIn shape)
    (h : Drawn depth shape) : Drawn depth part := by
  induction hpart generalizing depth with
  | here => exact h
  | vector _ ih =>
    cases h with
    | vector helement _ => exact (ih helement).succ
  | list _ ih =>
    cases h with
    | list helement _ => exact (ih helement).succ
  | container hfield _ ih =>
    cases h with
    | container hshapes _ => exact (ih (hshapes _ (of_mem_fieldsOf hfield).2)).succ
  | union hshape _ ih =>
    cases h with
    | union hshapes _ => exact (ih (hshapes _ (mem_of_some_mem hshape))).succ

theorem Drawn.choosable {depth : Nat} {shape : Shape} (h : Drawn depth shape) :
    Choosable shape := by
  intro alternatives hoccurs
  cases h.part hoccurs with
  | @union _ shapes _ hcount =>
    have hlength := (mem_span.1 hcount).2
    refine ⟨List.cons_ne_nil _ _, ?_, fun index hnone => ?_⟩
    · rw [List.length_cons, List.length_map]
      omega
    · cases index with
      | zero => rfl
      | succ index => simp at hnone

theorem Drawn.names {allowed : String → Prop} (hallowed : ∀ name ∈ fieldNames, allowed name)
    {depth : Nat} {shape : Shape} (h : Drawn depth shape) : shape.Names allowed := by
  induction h with
  | bool => exact .bool
  | uint => exact .uint
  | byteVector => exact .byteVector
  | byteList => exact .byteList
  | bitVector => exact .bitVector
  | bitList => exact .bitList
  | vector _ _ ih => exact .vector ih
  | list _ _ ih => exact .list ih
  | container _ _ ih =>
    exact .container (nodup_names_fieldsOf _)
      (fun field hfield => hallowed _ (of_mem_fieldsOf hfield).1)
      (fun field hfield => ih _ (of_mem_fieldsOf hfield).2)
  | union _ _ ih => exact .union fun shape hshape => ih shape (mem_of_some_mem hshape)

/-! ## Sizes -/

/-- No value that is drawn for a shape of this depth takes more bytes. A leaf takes at most 64, and
    a composite has at most six parts, each behind an offset. -/
def longest : (depth : Nat) → Nat
  | 0 => 0
  | depth + 1 => 64 + 6 * (bytesPerOffset + longest depth)

/-- The size of a record whose fields take some bytes each. -/
theorem fieldsFixedSize?_bounds {fields : List (Field Shape)} {bound size : Nat}
    (h : ∀ field ∈ fields, ∀ size ∈ field.shape.fixedSize?, 0 < size ∧ size ≤ bound)
    (hsize : Shape.fieldsFixedSize? fields = some size) :
    fields.length ≤ size ∧ size ≤ fields.length * bound := by
  induction fields generalizing size with
  | nil =>
    cases hsize
    exact ⟨Nat.le_refl _, Nat.zero_le _⟩
  | cons field fields ih =>
    obtain ⟨hfield, hfields⟩ := List.forall_mem_cons.1 h
    rw [Shape.fieldsFixedSize?] at hsize
    split at hsize
    · rename_i own rest hown hrest
      cases hsize
      obtain ⟨hpos, hle⟩ := hfield own hown
      obtain ⟨hcount, hlength⟩ := ih hfields hrest
      rw [List.length_cons, Nat.succ_mul]
      omega
    · cases hsize

/-- A fixed size is at least one byte, and no larger than the most bytes of the depth. -/
theorem Drawn.fixedSize_bounds {depth : Nat} {shape : Shape} (h : Drawn depth shape) :
    ∀ size ∈ shape.fixedSize?, 0 < size ∧ size ≤ longest depth := by
  induction h with
  | bool =>
    rintro _ ⟨⟩
    rw [longest]
    omega
  | @uint _ width _ =>
    rintro _ ⟨⟩
    rw [longest]
    cases width <;> simp only [UintWidth.bytes] <;> omega
  | byteVector hlength =>
    rintro _ ⟨⟩
    have hlength := mem_span.1 hlength
    rw [longest]
    omega
  | bitVector hlength =>
    rintro _ ⟨⟩
    have hlength := mem_span.1 hlength
    rw [longest, ceilDiv]
    omega
  | byteList | bitList | list | union => rintro _ ⟨⟩
  | @vector depth element length _ hlength ih =>
    intro size hsize
    obtain ⟨own, hown, rfl⟩ := Option.map_eq_some_iff.1 hsize
    obtain ⟨hfirst, hlast⟩ := mem_span.1 hlength
    obtain ⟨hpos, hle⟩ := ih own hown
    have hupper : own * length ≤ longest depth * 4 := Nat.mul_le_mul hle hlast
    refine ⟨Nat.mul_pos hpos hfirst, ?_⟩
    rw [longest]
    omega
  | @container depth shapes _ hcount ih =>
    intro size hsize
    obtain ⟨hfirst, -⟩ := mem_span.1 hcount
    have hfields : ∀ field ∈ fieldsOf shapes, ∀ size ∈ field.shape.fixedSize?,
        0 < size ∧ size ≤ longest depth :=
      fun field hfield => ih _ (of_mem_fieldsOf hfield).2
    obtain ⟨hlower, hupper⟩ := fieldsFixedSize?_bounds hfields hsize
    have hlength : (fieldsOf shapes).length = min 4 shapes.length := List.length_zipWith
    have hlast : (fieldsOf shapes).length * longest depth ≤ 4 * longest depth :=
      Nat.mul_le_mul_right _ (length_fieldsOf_le shapes)
    rw [longest]
    omega

theorem Drawn.fixedSize_ne_zero {depth : Nat} {shape : Shape} (h : Drawn depth shape) :
    shape.fixedSize? ≠ some 0 := by
  intro hzero
  exact Nat.lt_irrefl 0 (h.fixedSize_bounds 0 hzero).1

/-! ## Encodings -/

/-- If the most bytes of a depth fit behind an offset, then so do those of the parts, and all parts
    of a composite together. -/
theorem parts_fit {depth : Nat} (h : longest (depth + 1) < Nat.pow 256 bytesPerOffset) :
    longest depth < Nat.pow 256 bytesPerOffset ∧
      6 * (bytesPerOffset + longest depth) < Nat.pow 256 bytesPerOffset := by
  rw [longest] at h
  omega

theorem encodedWithin_of_fixedSize {depth size : Nat} {shape : Shape} (h : Drawn depth shape)
    (hsize : shape.fixedSize? = some size) {v : Value} {bytes : Bytes}
    (hencodes : shape.Encodes v bytes) : shape.EncodedWithin (longest depth) v :=
  ⟨bytes, hencodes, hencodes.length_eq size hsize ▸ (h.fixedSize_bounds size hsize).2⟩

/-- A value with short lists has an encoding, of no more than the most bytes of the depth. -/
theorem Drawn.encodedWithin {depth : Nat} {shape : Shape} (h : Drawn depth shape)
    (hfits : longest depth < Nat.pow 256 bytesPerOffset) {v : Value}
    (hcheck : shape.check v = .ok ()) (hshort : ShortLists shape v) :
    shape.EncodedWithin (longest depth) v := by
  induction h generalizing v with
  | bool =>
    obtain ⟨b, rfl⟩ := Shape.check_bool.1 hcheck
    exact encodedWithin_of_fixedSize .bool rfl (Shape.encodes_bool.2 ⟨b, rfl, rfl⟩)
  | uint hwidth =>
    obtain ⟨n, rfl⟩ := Shape.check_uint.1 hcheck
    exact encodedWithin_of_fixedSize (.uint hwidth) rfl (Shape.encodes_uint.2 ⟨n, rfl, rfl⟩)
  | byteVector hlength =>
    obtain ⟨contents, rfl, heq⟩ := Shape.check_byteVector.1 hcheck
    exact encodedWithin_of_fixedSize (.byteVector hlength) rfl
      (Shape.encodes_byteVector.2 ⟨rfl, heq⟩)
  | bitVector hlength =>
    obtain ⟨bits, rfl, heq⟩ := Shape.check_bitVector.1 hcheck
    exact encodedWithin_of_fixedSize (.bitVector hlength) rfl
      (Shape.encodes_bitVector.2 ⟨bits, rfl, heq, rfl⟩)
  | byteList hcapacity =>
    obtain ⟨contents, rfl, hmax⟩ := Shape.check_byteList.1 hcheck
    have hcapacity := (mem_span.1 hcapacity).2
    refine ⟨contents, Shape.encodes_byteList.2 ⟨rfl, hmax⟩, ?_⟩
    rw [longest]
    omega
  | bitList hcapacity =>
    obtain ⟨bits, rfl, hmax⟩ := Shape.check_bitList.1 hcheck
    have hcapacity := (mem_span.1 hcapacity).2
    refine ⟨bits.toWire, Shape.encodes_bitList.2 ⟨bits, rfl, rfl, hmax⟩, ?_⟩
    rw [longest, Bits.length_toWire]
    omega
  | vector _ hlength ih =>
    obtain ⟨hparts, hwhole⟩ := parts_fit hfits
    obtain ⟨items, rfl, rfl, hitems⟩ := Shape.check_vector.1 hcheck
    have hshort' := shortLists_vector.1 hshort
    have hcount : items.length ≤ 6 := Nat.le_trans (mem_span.1 hlength).2 (by decide)
    have hencoded := Shape.encodedWithin_vector hcount
      (fun item hitem => ih hparts (hitems item hitem) (hshort' item hitem)) hwhole
    exact hencoded.mono (Nat.le_add_left _ _)
  | list _ _ ih =>
    obtain ⟨hparts, hwhole⟩ := parts_fit hfits
    obtain ⟨items, rfl, hmax, hitems⟩ := Shape.check_list.1 hcheck
    -- The capacity may be large, so the number of elements is bounded by the value alone.
    obtain ⟨hcount, hshort'⟩ := shortLists_list.1 hshort
    have hencoded := Shape.encodedWithin_list hmax hcount
      (fun item hitem => ih hparts (hitems item hitem) (hshort' item hitem)) hwhole
    exact hencoded.mono (Nat.le_add_left _ _)
  | @container depth shapes _ _ ih =>
    obtain ⟨hparts, hwhole⟩ := parts_fit hfits
    obtain ⟨vs, rfl, hvs⟩ := Shape.check_container.1 hcheck
    have hshort' := (shortLists_container hvs.length_eq).1 hshort
    have himp := forall₂_imp_of_mem hvs fun field hfield v hv =>
      ih _ (of_mem_fieldsOf hfield).2 hparts hv
    have hfields : List.Forall₂ (fun field v => field.shape.EncodedWithin (longest depth) v)
        (fieldsOf shapes) vs := himp.mp (fun field v hv hs => hv hs) hshort'
    have hcount : (fieldsOf shapes).length ≤ 6 :=
      Nat.le_trans (length_fieldsOf_le shapes) (by decide)
    exact (Shape.encodedWithin_container hcount hfields hwhole).mono (Nat.le_add_left _ _)
  | union _ _ ih =>
    obtain ⟨hparts, -⟩ := parts_fit hfits
    obtain ⟨rfl, hnone⟩ | ⟨selector, shape, inner, rfl, hshape, hinner⟩ :=
      Shape.check_union.1 hcheck
    · refine ⟨[0], Shape.encodes_union.2 (.inl ⟨hnone, rfl, rfl⟩), ?_⟩
      rw [longest]
      exact Nat.le_add_right_of_le (by decide)
    · have hmem := mem_of_some_mem (List.mem_of_getElem? hshape)
      have hencoded := ih shape hmem hparts hinner ((shortLists_union_some hshape).1 hshort)
      refine (Shape.encodedWithin_union_some hshape hencoded).mono ?_
      rw [longest]
      omega

/-! ## Nesting -/

/-- The tree of a value nests no deeper than the shape is drawn. -/
theorem Drawn.depth_le {depth : Nat} {shape : Shape} (h : Drawn depth shape) {v : Value} {t : Tree}
    (hrenders : shape.Renders v t) : t.depth ≤ depth := by
  induction h generalizing v t with
  | bool =>
    obtain ⟨b, rfl, rfl⟩ := Shape.renders_bool.1 hrenders
    exact Nat.zero_le _
  | uint =>
    obtain ⟨n, rfl, rfl⟩ := Shape.renders_uint.1 hrenders
    exact Nat.zero_le _
  | byteVector =>
    obtain ⟨contents, rfl, -, rfl⟩ := Shape.renders_byteVector.1 hrenders
    exact Nat.zero_le _
  | byteList =>
    obtain ⟨contents, rfl, -, rfl⟩ := Shape.renders_byteList.1 hrenders
    exact Nat.zero_le _
  | bitVector =>
    obtain ⟨bits, rfl, -, rfl⟩ := Shape.renders_bitVector.1 hrenders
    exact Nat.zero_le _
  | bitList =>
    obtain ⟨bits, rfl, -, rfl⟩ := Shape.renders_bitList.1 hrenders
    exact Nat.zero_le _
  | vector _ _ ih =>
    obtain ⟨items, trees, rfl, -, htrees, rfl⟩ := Shape.renders_vector.1 hrenders
    have hdepth := Shape.forall_tree_of_renders htrees fun v t => ih
    exact Nat.succ_le_succ (Tree.depthItems_le.2 hdepth)
  | list _ _ ih =>
    obtain ⟨items, trees, rfl, -, htrees, rfl⟩ := Shape.renders_list.1 hrenders
    have hdepth := Shape.forall_tree_of_renders htrees fun v t => ih
    exact Nat.succ_le_succ (Tree.depthItems_le.2 hdepth)
  | container _ _ ih =>
    obtain ⟨vs, entries, rfl, hentries, rfl⟩ := Shape.renders_container.1 hrenders
    exact Tree.depth_ofEntries_le (hentries.forall_tree fun field hfield v t =>
      ih _ (of_mem_fieldsOf hfield).2)
  | union _ _ ih =>
    obtain ⟨rfl, -, rfl⟩ | ⟨selector, shape, inner, payload, rfl, hshape, hinner, rfl⟩ :=
      Shape.renders_union.1 hrenders
    · exact Nat.succ_le_succ (Nat.zero_le _)
    · have hpayload := ih shape (mem_of_some_mem (List.mem_of_getElem? hshape)) hinner
      refine Nat.succ_le_succ (Tree.depthEntries_le.2 ?_)
      rintro entry hentry
      simp only [List.mem_cons, List.not_mem_nil, or_false] at hentry
      rcases hentry with rfl | rfl
      · exact Nat.zero_le _
      · exact hpayload

/-! ## Round trips -/

/-- What the round trips over the wire and over text ask of a shape and its value. -/
structure Suited (shape : Shape) (v : Value) : Prop where
  check : shape.check v = .ok ()
  sizes : ∀ part : Shape, part.OccursIn shape → ∀ size ∈ part.fixedSize?, size < 2 ^ 64
  offsets : ∀ offset, shape.HasOffset v offset → offset < 2 ^ 32
  lossless : ¬shape.HoldsSizeless v
  names : shape.Names fun name => Text.Yaml.isIdentifier name = true
  depth : ∀ t, toTree shape v = .ok t → t.depth ≤ 127

/-- The value is written to the wire and to both kinds of text, and it is read back from each. -/
structure RoundTrips (shape : Shape) (v : Value) : Prop where
  wire : ∃ bytes, encode shape v = .ok bytes ∧ decode shape bytes = .ok v
  json : ∃ text, toJson shape v = .ok text ∧ fromJson shape text = .ok v
  yaml : ∃ text, toYaml shape v = .ok text ∧ fromYaml shape text = .ok v

theorem Suited.roundTrips {shape : Shape} {v : Value} (h : Suited shape v) :
    RoundTrips shape v := by
  obtain ⟨bytes, hencode⟩ := (encode_addressed h.check).isOk_iff.2 h.offsets
  obtain ⟨t, hrenders⟩ := Shape.exists_renders h.check
  have htree : toTree shape v = .ok t := toTree_eq_ok.2 hrenders
  have hdepth := h.depth t htree
  constructor
  · exact ⟨bytes, hencode, (decode_eq_self_iff hencode).2 h.lossless⟩
  · have hwrite : toJson shape v = .ok (Json.print t) := by
      rw [toJson, htree]
      rfl
    exact ⟨_, hwrite, hrenders.fromJson_print (h.names.imp fun _ _ => trivial) hdepth⟩
  · have hwrite : toYaml shape v = .ok (Yaml.FlowLine.print t) := by
      rw [toYaml, htree]
      rfl
    exact ⟨_, hwrite, hrenders.fromYaml_print h.names (Nat.le_succ_of_le hdepth)⟩

theorem exists_part_of_holdsSizeless {shape : Shape} {v : Value} (h : shape.HoldsSizeless v) :
    ∃ part : Shape, part.OccursIn shape ∧ part.fixedSize? = some 0 := by
  induction h with
  | @here element _ _ hzero _ => exact ⟨element, .list .here, hzero⟩
  | vector _ _ ih => exact ih.imp fun _ ⟨hpart, hzero⟩ => ⟨.vector hpart, hzero⟩
  | list _ _ ih => exact ih.imp fun _ ⟨hpart, hzero⟩ => ⟨.list hpart, hzero⟩
  | container _ hfield _ _ ih =>
    have hmem := List.mem_of_getElem? hfield
    exact ih.imp fun _ ⟨hpart, hzero⟩ => ⟨.container hmem hpart, hzero⟩
  | union hshape _ ih =>
    have hmem := List.mem_of_getElem? hshape
    exact ih.imp fun _ ⟨hpart, hzero⟩ => ⟨.union hmem hpart, hzero⟩

theorem Drawn.not_holdsSizeless {depth : Nat} {shape : Shape} (h : Drawn depth shape) (v : Value) :
    ¬shape.HoldsSizeless v := by
  intro hholds
  obtain ⟨part, hpart, hzero⟩ := exists_part_of_holdsSizeless hholds
  exact (h.part hpart).fixedSize_ne_zero hzero

/-- A shape that is drawn and a value that is drawn for it are suited to the round trips. -/
theorem Drawn.suited {shape : Shape} (h : Drawn maxShapeDepth shape) {v : Value}
    (hv : v ∈ values shape) : Suited shape v := by
  obtain ⟨hcheck, hshort⟩ := (mem_values h.choosable).1 hv
  have hlongest : longest maxShapeDepth < Nat.pow 256 bytesPerOffset := by decide
  obtain ⟨bytes, hencodes, -⟩ := h.encodedWithin hlongest hcheck hshort
  constructor
  case check => exact hcheck
  case sizes =>
    intro part hpart size hsize
    exact Nat.lt_of_le_of_lt ((h.part hpart).fixedSize_bounds size hsize).2 (by decide)
  case offsets => exact (encode_addressed hcheck).isOk_iff.1 ⟨bytes, encode_eq_ok.2 hencodes⟩
  case lossless => exact h.not_holdsSizeless v
  case names => exact h.names (by decide)
  case depth =>
    intro t ht
    exact Nat.le_trans (h.depth_le (toTree_eq_ok.1 ht)) (by decide)

/-- The values that are drawn for a shape are its well-formed values without long lists, if a value
    can be chosen for each of its unions. The shapes that are drawn are of this kind, and their
    values make all round trips. -/
theorem values_cover :
    (∀ shape, Choosable shape → ∀ v,
      v ∈ values shape ↔ shape.check v = .ok () ∧ ShortLists shape v) ∧
    ∀ shape, Drawn maxShapeDepth shape →
      Choosable shape ∧ shape.DistinctNames ∧
        (∀ part : Shape, part.OccursIn shape → part.fixedSize? ≠ some 0) ∧
        ∀ v ∈ values shape, Suited shape v ∧ RoundTrips shape v := by
  refine ⟨fun shape hshape v => mem_values hshape, fun shape hdrawn => ?_⟩
  refine ⟨hdrawn.choosable, hdrawn.names fun _ _ => trivial,
    fun part hpart => (hdrawn.part hpart).fixedSize_ne_zero, fun v hv => ?_⟩
  have hsuited := hdrawn.suited hv
  exact ⟨hsuited, hsuited.roundTrips⟩

/-- Six numbers are drawn for a list with room for many more, and seven are not. -/
theorem values_cover_numbers :
    let shape : Shape := .container "Generated" [⟨"f0", "f0", .list (.uint .u16) 0x100000⟩,
      ⟨"f1", "f1", .union [none, some (.bitList 9)]⟩]
    let v (count : Nat) : Value := .container [.list (List.replicate count (.uint .u16 7)),
      .union 1 (some (.bits (.ofList [true, false, true])))]
    v 6 ∈ values shape ∧ Suited shape (v 6) ∧ RoundTrips shape (v 6) ∧
      shape.check (v 7) = .ok () ∧ v 7 ∉ values shape := by
  intro shape v
  have hdrawn : Drawn maxShapeDepth shape := by
    have hparts : ∀ part ∈ [.list (.uint .u16) 0x100000, .union [none, some (.bitList 9)]],
        Drawn 3 part := by
      refine List.forall_mem_cons.2 ⟨?_, List.forall_mem_singleton.2 ?_⟩
      · exact .list (.uint (by decide)) (List.mem_append_right _ (List.mem_singleton.2 rfl))
      · have hinner : ∀ inner ∈ [Shape.bitList 9], Drawn 2 inner :=
          List.forall_mem_singleton.2 (.bitList (by decide))
        exact .union hinner (by decide)
    exact .container hparts (by decide)
  obtain ⟨hchoosable, -, -, hvalues⟩ := values_cover.2 shape hdrawn
  have hsix : v 6 ∈ values shape := by
    refine (values_cover.1 shape hchoosable _).2 ⟨rfl, (shortLists_container rfl).2 ?_⟩
    refine .cons (shortLists_list.2 ⟨Nat.le_refl 6, fun item hitem => ?_⟩) (.cons ?_ .nil)
    · cases List.eq_of_mem_replicate hitem
      exact shortLists_of_nodes rfl nofun
    · exact (shortLists_union_some rfl).2 (shortLists_of_nodes rfl nofun)
  obtain ⟨hsuited, hround⟩ := hvalues _ hsix
  refine ⟨hsix, hsuited, hround, rfl, fun hseven => ?_⟩
  have hshort := ((values_cover.1 shape hchoosable _).1 hseven).2
  have hle : 7 ≤ 6 := hshort (.uint .u16) 0x100000 _ (.tail _ (.head _))
  exact absurd hle (by decide)

end Ssz.Sampling
