-- SUMMARY: The text tree of a value is read back to the value, however a format spells its scalars.
import Ssz.Proofs.Bits
import Ssz.Proofs.Text.Renders
import Ssz.Proofs.Text.Scalars
import Ssz.Proofs.Text.Tree
import Ssz.Text.Read

/-!
# Reading rendered trees

The reader finds fields by name, so a record's names have to be distinct. Given
that, it gives back the value whose tree it reads. The law is stated for trees
that went through a format which may have changed the spelling of strings: it is
enough that numbers are still read and that hexadecimal strings are still strings.
-/

namespace Ssz

open Text

namespace Shape

/-! ## Names -/

/-- The fields of each record have distinct names, and the names are among those allowed. -/
inductive Names (allowed : String → Prop) : Shape → Prop
  | bool : Names allowed .bool
  | uint {width} : Names allowed (.uint width)
  | byteVector {length} : Names allowed (.byteVector length)
  | byteList {max} : Names allowed (.byteList max)
  | bitVector {length} : Names allowed (.bitVector length)
  | bitList {max} : Names allowed (.bitList max)
  | vector {element length} : Names allowed element → Names allowed (.vector element length)
  | list {element max} : Names allowed element → Names allowed (.list element max)
  | container {name fields} : (fields.map Field.name).Nodup →
      (∀ field ∈ fields, allowed field.name) →
      (∀ field ∈ fields, Names allowed field.shape) → Names allowed (.container name fields)
  | union {alternatives} : (∀ shape, some shape ∈ alternatives → Names allowed shape) →
      Names allowed (.union alternatives)

theorem Names.imp {allowed other : String → Prop} (himp : ∀ name, allowed name → other name)
    {shape : Shape} (h : shape.Names allowed) : shape.Names other := by
  induction h with
  | bool => exact .bool
  | uint => exact .uint
  | byteVector => exact .byteVector
  | byteList => exact .byteList
  | bitVector => exact .bitVector
  | bitList => exact .bitList
  | vector _ ih => exact .vector ih
  | list _ ih => exact .list ih
  | container hdistinct hallowed _ ih =>
    exact .container hdistinct (fun field hfield => himp _ (hallowed field hfield)) ih
  | union _ ih => exact .union ih

theorem RendersFields.keys {fields : List (Field Shape)} {values : List Value}
    {entries : List (String × Tree)} (h : RendersFields fields values entries) :
    entries.map Prod.fst = fields.map Field.name := by
  induction h with
  | nil => rfl
  | cons _ _ ih => rw [List.map_cons, List.map_cons, ih]

/-- The entries of a record are kept as they are, since its names are distinct. -/
theorem RendersFields.ofEntries {fields : List (Field Shape)} {values : List Value}
    {entries : List (String × Tree)} (h : RendersFields fields values entries)
    (hnodup : (fields.map Field.name).Nodup) : Tree.ofEntries entries = entries :=
  Tree.ofEntries_of_nodup (h.keys ▸ hnodup)

/-! ## Rendered trees are regular -/

theorem RendersFields.forall_tree {fields : List (Field Shape)} {values : List Value}
    {entries : List (String × Tree)} {p : Tree → Prop} (h : RendersFields fields values entries)
    (hp : ∀ field ∈ fields, ∀ v t, field.shape.Renders v t → p t) :
    ∀ entry ∈ entries, p entry.2 := by
  induction h with
  | nil =>
    intro entry hentry
    cases hentry
  | cons hrenders _ ih =>
    intro entry hentry
    rcases List.mem_cons.1 hentry with rfl | hentry
    · exact hp _ List.mem_cons_self _ _ hrenders
    · exact ih (fun field hfield => hp field (List.mem_cons_of_mem _ hfield)) entry hentry

theorem forall_tree_of_renders {element : Shape} {items : List Value} {trees : List Tree}
    {p : Tree → Prop} (h : List.Forall₂ element.Renders items trees)
    (hp : ∀ v t, element.Renders v t → p t) : ∀ t ∈ trees, p t := by
  induction h with
  | nil =>
    intro t ht
    cases ht
  | cons hrenders _ ih =>
    intro t ht
    rcases List.mem_cons.1 ht with rfl | ht
    · exact hp _ _ hrenders
    · exact ih t ht

theorem nodup_unionKeys (selector payload : Tree) :
    ([(selectorKey, selector), (valueKey, payload)].map Prod.fst).Nodup :=
  have hkeys : [selectorKey, valueKey].Nodup := by decide
  hkeys

section Regular

variable {text key : String → Prop}

theorem regular_unionTree (htext : ∀ n, text (Decimal.render n)) (hselector : key selectorKey)
    (hvalue : key valueKey) (selector : UInt8) {payload : Tree} (h : payload.Regular text key) :
    (unionTree selector payload).Regular text key := by
  refine .object (nodup_unionKeys _ _) ?_ ?_
  · intro entry hentry
    simp only [List.mem_cons, List.not_mem_nil, or_false] at hentry
    rcases hentry with rfl | rfl
    · exact hselector
    · exact hvalue
  · intro entry hentry
    simp only [List.mem_cons, List.not_mem_nil, or_false] at hentry
    rcases hentry with rfl | rfl
    · exact .string (htext _)
    · exact h

theorem Renders.regular {shape : Shape} {v : Value} {t : Tree}
    (hdecimal : ∀ n, text (Decimal.render n)) (hhex : ∀ bytes, text (Hex.renderMarked bytes))
    (hselector : key selectorKey) (hvalue : key valueKey) (hnames : shape.Names key)
    (h : shape.Renders v t) : t.Regular text key := by
  induction shape generalizing v t with
  | bool =>
    obtain ⟨b, -, rfl⟩ := renders_bool.1 h
    exact .bool b
  | uint width =>
    obtain ⟨n, -, rfl⟩ := renders_uint.1 h
    exact .string (hdecimal _)
  | byteVector length =>
    obtain ⟨contents, -, -, rfl⟩ := renders_byteVector.1 h
    exact .string (hhex _)
  | byteList max =>
    obtain ⟨contents, -, -, rfl⟩ := renders_byteList.1 h
    exact .string (hhex _)
  | bitVector length =>
    obtain ⟨bits, -, -, rfl⟩ := renders_bitVector.1 h
    exact .string (hhex _)
  | bitList max =>
    obtain ⟨bits, -, -, rfl⟩ := renders_bitList.1 h
    exact .string (hhex _)
  | vector element length ih =>
    cases hnames with
    | vector hnames =>
      obtain ⟨items, trees, -, -, htrees, rfl⟩ := renders_vector.1 h
      exact .array (forall_tree_of_renders htrees fun _ _ hitem => ih hnames hitem)
  | list element max ih =>
    cases hnames with
    | list hnames =>
      obtain ⟨items, trees, -, -, htrees, rfl⟩ := renders_list.1 h
      exact .array (forall_tree_of_renders htrees fun _ _ hitem => ih hnames hitem)
  | container name fields ih =>
    cases hnames with
    | container hnodup hkeys hnames =>
      obtain ⟨values, entries, -, hentries, rfl⟩ := renders_container.1 h
      rw [hentries.ofEntries hnodup]
      refine .object (hentries.keys ▸ hnodup) ?_ ?_
      · intro entry hentry
        have hname := List.mem_map_of_mem (f := Prod.fst) hentry
        rw [hentries.keys] at hname
        obtain ⟨field, hfield, heq⟩ := List.mem_map.1 hname
        exact heq ▸ hkeys field hfield
      · exact hentries.forall_tree fun field hfield _ _ hv =>
          ih field hfield (hnames field hfield) hv
  | union alternatives ih =>
    cases hnames with
    | union hnames =>
      obtain ⟨-, -, rfl⟩ | ⟨selector, shape, inner, payload, -, hshape, hinner, rfl⟩ :=
        renders_union.1 h
      · exact regular_unionTree hdecimal hselector hvalue _ .null
      · have hmem := List.mem_of_getElem? hshape
        exact regular_unionTree hdecimal hselector hvalue _
          (ih shape hmem (hnames shape hmem) hinner)

end Regular

end Shape

/-! ## Spelling -/

/-- A format that spells strings in this way leaves numbers and hexadecimal strings readable. -/
structure Readable (d : Dialect) (spelling : String → Tree) : Prop where
  uint : ∀ (width : UintWidth) (n : BitVec width.bits) (label : String),
    uintOf d width label (spelling (Decimal.render n.toNat)) = .ok n
  hex : ∀ bytes, spelling (Hex.renderMarked bytes) = .string (Hex.renderMarked bytes)

theorem UintWidth.toNat_lt_bound {width : UintWidth} (n : BitVec width.bits) :
    n.toNat < width.bound := n.isLt

theorem readUint_render {width : UintWidth} (n : BitVec width.bits) :
    readUint width (Decimal.render n.toNat) = .ok n := by
  obtain ⟨c, cs, hdigits⟩ := List.exists_cons_of_ne_nil (Decimal.digits_ne_nil n.toNat)
  have hread := Decimal.read_digits (UintWidth.toNat_lt_bound n)
  rw [hdigits] at hread
  have hdigit : ¬ (Decimal.digit? c).isNone := by
    intro hnone
    rw [Option.isNone_iff_eq_none] at hnone
    rw [Decimal.read, Decimal.readFrom, hnone] at hread
    cases hread
  rw [readUint, Decimal.toList_render, hdigits]
  simp only [hread, if_neg hdigit, BitVec.ofNat_toNat, BitVec.setWidth_eq]

/-- Strings that are kept as they are are readable. -/
theorem readable_string (d : Dialect) : Readable d .string where
  uint width n label := by rw [uintOf, readUint_render, inField]
  hex _ := rfl

theorem present_of_uintOf {d : Dialect} {width : UintWidth} {label : String} {t : Tree}
    {n : BitVec width.bits} (h : uintOf d width label t = .ok n) (name : String) :
    present name (some t) = .ok t := by
  cases t with
  | null => cases h
  | string s =>
    have hs : s ≠ "" := by
      rintro rfl
      cases h
    rw [present, if_neg hs]
  | _ => rfl

theorem present_hex (bytes : Bytes) (name : String) :
    present name (some (.string (Hex.renderMarked bytes)))
      = .ok (.string (Hex.renderMarked bytes)) := by
  have hne : Hex.renderMarked bytes ≠ "" := by
    intro h
    have hlist := congrArg String.toList h
    rw [Hex.toList_renderMarked] at hlist
    cases hlist
  rw [present, if_neg hne]

theorem bytesOf_renderMarked (d : Dialect) (label : String) (bytes : Bytes) :
    bytesOf d label (.string (Hex.renderMarked bytes)) = .ok bytes := by
  simp only [bytesOf, Hex.toList_renderMarked, Hex.readMarked_marked]

@[simp] theorem exactly_eq_ok {label : String} {expected actual : Nat} :
    exactly label expected actual = .ok () ↔ actual = expected := by
  unfold exactly
  split <;> simp_all

@[simp] theorem atMost_eq_ok {label : String} {max actual : Nat} :
    atMost label max actual = .ok () ↔ actual ≤ max := by
  unfold atMost
  split <;> simp_all

theorem bitVectorOf_bytes (label : String) (bits : Bits) :
    bitVectorOf label bits.length bits.bytes = .ok bits := by
  rw [bitVectorOf, Bits.ofPacked_eq_ok.2 ⟨rfl, rfl⟩]

theorem bitListOf_toWire (label : String) {max : Nat} {bits : Bits} (hmax : bits.length ≤ max) :
    bitListOf label max bits.toWire = .ok bits := by
  rw [bitListOf, Bits.ofWire_eq_ok.2 ⟨rfl, hmax⟩]

namespace Shape

variable {d : Dialect} {spelling : String → Tree}

/-- No rendered value is taken for a missing one. -/
theorem Renders.present {shape : Shape} {v : Value} {t : Tree} (hspell : Readable d spelling)
    (h : shape.Renders v t) (label : String) :
    present label (some (t.respell spelling)) = .ok (t.respell spelling) := by
  have hhex (bytes : Bytes) := hspell.hex bytes ▸ present_hex bytes label
  cases shape with
  | bool =>
    obtain ⟨b, -, rfl⟩ := renders_bool.1 h
    rfl
  | uint width =>
    obtain ⟨n, -, rfl⟩ := renders_uint.1 h
    exact present_of_uintOf (hspell.uint width n label) label
  | byteVector length =>
    obtain ⟨contents, -, -, rfl⟩ := renders_byteVector.1 h
    exact hhex contents
  | byteList max =>
    obtain ⟨contents, -, -, rfl⟩ := renders_byteList.1 h
    exact hhex contents
  | bitVector length =>
    obtain ⟨bits, -, -, rfl⟩ := renders_bitVector.1 h
    exact hhex bits.bytes
  | bitList max =>
    obtain ⟨bits, -, -, rfl⟩ := renders_bitList.1 h
    exact hhex bits.toWire
  | vector element length =>
    obtain ⟨items, trees, -, -, -, rfl⟩ := renders_vector.1 h
    rfl
  | list element max =>
    obtain ⟨items, trees, -, -, -, rfl⟩ := renders_list.1 h
    rfl
  | container name fields =>
    obtain ⟨values, entries, -, -, rfl⟩ := renders_container.1 h
    rfl
  | union alternatives =>
    obtain ⟨-, -, rfl⟩ | ⟨selector, shape, inner, payload, -, -, -, rfl⟩ := renders_union.1 h
    · rfl
    · rfl

theorem mapM_ofTree {element : Shape} {items : List Value} {trees : List Tree} {label : String}
    (h : List.Forall₂ element.Renders items trees)
    (hread : ∀ v t, element.Renders v t → element.ofTree d label (t.respell spelling) = .ok v) :
    ((Tree.respellItems spelling trees).mapM fun item => element.ofTree d label item)
      = .ok items := by
  rw [mapM_eq_ok, Tree.respellItems_eq_map, List.forall₂_map_left_iff]
  exact h.flip.imp fun t v hv => hread v t hv

/-- Each field finds its own entry. -/
theorem fieldsOfEntries_eq_ok (hspell : Readable d spelling) {fields : List (Field Shape)}
    {values : List Value} {entries all : List (String × Tree)}
    (h : RendersFields fields values entries)
    (hlookup : ∀ key t, (key, t) ∈ entries → all.lookup key = some (t.respell spelling))
    (hread : ∀ field ∈ fields, ∀ v t label, field.shape.Renders v t →
      field.shape.ofTree d label (t.respell spelling) = .ok v) :
    fieldsOfEntries d fields all = .ok values := by
  induction h with
  | nil => rfl
  | @cons field fields v values t entries hrenders hentries ih =>
    have hfields := ih (fun key t hmem => hlookup key t (List.mem_cons_of_mem _ hmem))
      fun field hfield => hread field (List.mem_cons_of_mem _ hfield)
    simp only [fieldsOfEntries, bind_eq_ok, pure_eq_ok]
    refine ⟨_, ?_, v, hread field List.mem_cons_self v t _ hrenders, values, hfields, rfl⟩
    rw [hlookup _ _ List.mem_cons_self, hrenders.present hspell]

theorem chosenOfEntry_some {selector : UInt8} {alternatives : List (Option Shape)} {index : Nat}
    {shape : Shape} (hshape : alternatives[index]? = some (some shape)) (label : String)
    {t : Tree} {v : Value} (hpresent : Text.present label (some t) = .ok t)
    (hread : shape.ofTree d label t = .ok v) :
    chosenOfEntry d selector alternatives index label (some t) = .ok (some v) := by
  refine chosen_induction hshape ?_ ?_
  · intro rest
    simp only [chosenOfEntry, bind_eq_ok, pure_eq_ok]
    exact ⟨t, hpresent, v, hread, rfl⟩
  · intro choice rest index ih
    cases choice <;> exact ih

theorem chosenOfEntry_none {alternatives : List (Option Shape)}
    (hnone : alternatives[0]? = some none) (label : String) :
    chosenOfEntry d 0 alternatives 0 label (some .null) = .ok none := by
  cases alternatives with
  | nil => cases hnone
  | cons choice rest =>
    cases hnone
    rfl

/-- A union is read from its two entries. -/
theorem ofTree_unionTree (hspell : Readable d spelling) {alternatives : List (Option Shape)}
    {selector : UInt8} {payload : Tree} {inner : Option Value} {label : String}
    (hchosen : chosenOfEntry d selector alternatives selector.toNat label
      (some (payload.respell spelling)) = .ok inner) :
    (union alternatives).ofTree d label ((unionTree selector payload).respell spelling)
      = .ok (.union selector inner) := by
  have hselector := hspell.uint .u8 selector.toBitVec selectorKey
  have hnodup := nodup_unionKeys (spelling (Decimal.render selector.toNat))
    (payload.respell spelling)
  simp only [ofTree, unionTree, Tree.respell, Tree.respellEntries, entriesOf, bind_eq_ok,
    pure_eq_ok]
  refine ⟨_, rfl, _, ?_, selector.toBitVec, hselector, inner, ?_, rfl⟩
  · rw [Tree.lookup_of_mem hnodup List.mem_cons_self]
    exact present_of_uintOf hselector selectorKey
  · rw [Tree.lookup_of_mem hnodup (List.mem_cons_of_mem _ List.mem_cons_self)]
    exact hchosen

/-- The tree of a value is read back to the value. -/
theorem Renders.ofTree_respell (hspell : Readable d spelling) {allowed : String → Prop}
    {shape : Shape} {v : Value} {t : Tree} (hnames : shape.Names allowed) (h : shape.Renders v t)
    (label : String) : shape.ofTree d label (t.respell spelling) = .ok v := by
  induction shape generalizing v t label with
  | bool =>
    obtain ⟨b, rfl, rfl⟩ := renders_bool.1 h
    rfl
  | uint width =>
    obtain ⟨n, rfl, rfl⟩ := renders_uint.1 h
    simp only [ofTree, Tree.respell, bind_eq_ok, pure_eq_ok]
    exact ⟨n, hspell.uint width n label, rfl⟩
  | byteVector length =>
    obtain ⟨contents, rfl, hlength, rfl⟩ := renders_byteVector.1 h
    simp only [ofTree, Tree.respell, hspell.hex, bind_eq_ok, exists_unit, pure_eq_ok, exactly_eq_ok]
    exact ⟨contents, bytesOf_renderMarked d label contents, hlength, rfl⟩
  | byteList max =>
    obtain ⟨contents, rfl, hmax, rfl⟩ := renders_byteList.1 h
    simp only [ofTree, Tree.respell, hspell.hex, bind_eq_ok, exists_unit, pure_eq_ok, atMost_eq_ok]
    exact ⟨contents, bytesOf_renderMarked d label contents, hmax, rfl⟩
  | bitVector length =>
    obtain ⟨bits, rfl, rfl, rfl⟩ := renders_bitVector.1 h
    simp only [ofTree, Tree.respell, hspell.hex, bind_eq_ok, exists_unit, pure_eq_ok, exactly_eq_ok]
    exact ⟨bits.bytes, bytesOf_renderMarked d label bits.bytes, bits.length_bytes, bits,
      bitVectorOf_bytes label bits, rfl⟩
  | bitList max =>
    obtain ⟨bits, rfl, hmax, rfl⟩ := renders_bitList.1 h
    simp only [ofTree, Tree.respell, hspell.hex, bind_eq_ok, pure_eq_ok]
    exact ⟨bits.toWire, bytesOf_renderMarked d label bits.toWire, bits, bitListOf_toWire label hmax,
      rfl⟩
  | vector element length ih =>
    cases hnames with
    | vector hnames =>
      obtain ⟨items, trees, rfl, hlength, htrees, rfl⟩ := renders_vector.1 h
      simp only [ofTree, Tree.respell, itemsOf, bind_eq_ok, exists_unit, pure_eq_ok, exactly_eq_ok]
      refine ⟨_, rfl, ?_, items, mapM_ofTree htrees fun _ _ hv => ih hnames hv label, rfl⟩
      rw [Tree.length_respellItems, ← htrees.length_eq, hlength]
  | list element max ih =>
    cases hnames with
    | list hnames =>
      obtain ⟨items, trees, rfl, hmax, htrees, rfl⟩ := renders_list.1 h
      simp only [ofTree, Tree.respell, itemsOf, bind_eq_ok, exists_unit, pure_eq_ok, atMost_eq_ok]
      refine ⟨_, rfl, ?_, items, mapM_ofTree htrees fun _ _ hv => ih hnames hv label, rfl⟩
      rwa [Tree.length_respellItems, ← htrees.length_eq]
  | container name fields ih =>
    cases hnames with
    | container hnodup hkeys hnames =>
      obtain ⟨values, entries, rfl, hentries, rfl⟩ := renders_container.1 h
      rw [hentries.ofEntries hnodup]
      simp only [ofTree, Tree.respell, entriesOf, bind_eq_ok, pure_eq_ok]
      have hkeysNodup : ((Tree.respellEntries spelling entries).map Prod.fst).Nodup := by
        rwa [Tree.keys_respellEntries, hentries.keys]
      refine ⟨_, rfl, values, fieldsOfEntries_eq_ok hspell hentries ?_ ?_, rfl⟩
      · intro key t hmem
        refine Tree.lookup_of_mem hkeysNodup ?_
        rw [Tree.respellEntries_eq_map]
        exact List.mem_map.2 ⟨(key, t), hmem, rfl⟩
      · intro field hfield v t label hv
        exact ih field hfield (hnames field hfield) hv label
  | union alternatives ih =>
    cases hnames with
    | union hnames =>
      obtain ⟨rfl, hnone, rfl⟩ | ⟨selector, shape, inner, payload, rfl, hshape, hinner, rfl⟩ :=
        renders_union.1 h
      · exact ofTree_unionTree hspell (chosenOfEntry_none hnone label)
      · have hmem := List.mem_of_getElem? hshape
        exact ofTree_unionTree hspell (chosenOfEntry_some hshape label
          (hinner.present hspell label) (ih shape hmem (hnames shape hmem) hinner label))

end Shape

end Ssz
