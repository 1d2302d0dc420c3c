-- SUMMARY: The digest of a value over fully written out trees, and that the hasher computes it.
import Ssz.Proofs.Merkle.Chunk
import Ssz.Proofs.Merkle.Dense
import Ssz.Proofs.WellFormed

/-!
# Digests

The digest of a value is defined over full trees whose leaves are cut from the
wire layout of the value, or are the digests of its parts. The limits are spelled
out for each shape. The hasher, which packs on the way and never builds a full
tree, computes the same digest.
-/

namespace Ssz

namespace Shape

/-! ## Definition -/

/-- The root over a byte string, with as many leaves as it takes. -/
def bytesRoot (bytes : Bytes) : Chunk := DenseTree.root (leaves bytes) (leaves bytes).length

mutual

/-- The digest of a well-formed value. -/
def digest : Shape → Value → Chunk
  | .bool, v => bytesRoot (layout .bool v)
  | .uint width, v => bytesRoot (layout (.uint width) v)
  | .byteVector length, v => bytesRoot (layout (.byteVector length) v)
  | .byteList max, .bytes contents =>
    hashPair (DenseTree.root (leaves contents) ((max + 31) / 32)) (numberChunk contents.length)
  | .bitVector length, v => bytesRoot (layout (.bitVector length) v)
  | .bitList max, .bits contents =>
    -- The packed bits stand here without the sentinel, as those of a bitvector do.
    let bytes := layout (.bitVector contents.length) (.bits contents)
    hashPair (DenseTree.root (leaves bytes) ((max + 255) / 256)) (numberChunk contents.length)
  | .vector element _, .list items =>
    if element.isBasic then bytesRoot (items.map fun item => element.layout item).flatten
    else DenseTree.root (items.map fun item => element.digest item) items.length
  | .list element max, .list items =>
    let content :=
      if element.isBasic then
        DenseTree.root (leaves (items.map fun item => element.layout item).flatten)
          ((max * element.prefixSize + 31) / 32)
      else DenseTree.root (items.map fun item => element.digest item) max
    hashPair content (numberChunk items.length)
  | .container _ fields, .container values =>
    DenseTree.root (digestFields fields values) fields.length
  | .union alternatives, .union selector inner =>
    hashPair (digestChosen alternatives selector.toNat inner) (numberChunk selector.toNat)
  | _, _ => .zero _
termination_by structural shape => shape

def digestFields : List (Field Shape) → List Value → List Chunk
  | ⟨_, _, shape⟩ :: fields, v :: values => shape.digest v :: digestFields fields values
  | _, _ => []
termination_by structural fields => fields

/-- The empty alternative has the zero chunk. -/
def digestChosen : (alternatives : List (Option Shape)) → (index : Nat) → Option Value → Chunk
  | some shape :: _, 0, some inner => shape.digest inner
  | _ :: alternatives, index + 1, inner => digestChosen alternatives index inner
  | _, _, _ => .zero _
termination_by structural alternatives => alternatives

end

-- The laws below all unfold these, so that their equations are best derived here, once.
attribute [local simp] root digest layout

/-- What an element counts for in a capacity: its bytes if it is a scalar, otherwise one root. -/
def weight (element : Shape) : Nat := if element.isBasic then element.prefixSize else 1

/-- All capacities fit a count of the machine, those of scalars in bytes. -/
inductive Bounded : Shape → Prop
  | bool : Bounded .bool
  | uint {width} : Bounded (.uint width)
  | byteVector {length} : length ≤ maxCount → Bounded (.byteVector length)
  | byteList {max} : max ≤ maxCount → Bounded (.byteList max)
  | bitVector {length} : length ≤ maxCount → Bounded (.bitVector length)
  | bitList {max} : max ≤ maxCount → Bounded (.bitList max)
  | vector {element length} : length * element.weight ≤ maxCount → Bounded element →
      Bounded (.vector element length)
  | list {element max} : max * element.weight ≤ maxCount → Bounded element →
      Bounded (.list element max)
  | container {name fields} : fields.length ≤ maxCount → (∀ field ∈ fields, Bounded field.shape) →
      Bounded (.container name fields)
  | union {alternatives} : (∀ shape, some shape ∈ alternatives → Bounded shape) →
      Bounded (.union alternatives)

/-! ## Trees over bytes -/

theorem room_of_le_maxCount {limit : Nat} (h : limit ≤ maxCount) : limit ≤ 2 ^ maxTreeDepth :=
  Nat.le_trans h (by decide)

theorem merkleize_packChunks (bytes : Bytes) {limit : Nat}
    (hbytes : (bytes.length + 31) / 32 ≤ limit) (hlimit : limit ≤ maxCount) :
    merkleize (packChunks bytes) limit = .ok (DenseTree.root (leaves bytes) limit) := by
  rw [packChunks_eq_leaves]
  refine DenseTree.merkleize_eq_root ?_ (room_of_le_maxCount hlimit)
  rwa [length_leaves]

/-- The contents of a shape of fixed size have a tree with as much room as they take. -/
theorem merkleize_packChunks_self {bytes : Bytes} {limit : Nat}
    (hlimit : limit = (bytes.length + 31) / 32) (hbound : limit ≤ maxCount) :
    merkleize (packChunks bytes) limit = .ok (bytesRoot bytes) := by
  rw [merkleize_packChunks bytes (Nat.le_of_eq hlimit.symm) hbound, hlimit, ← length_leaves]
  rfl

theorem chunkCount_eq {count size : Nat} (h : count * size ≤ maxCount) :
    chunkCount count size = (count * size + 31) / 32 := by
  rw [chunkCount, Nat.min_eq_left h]
  rfl

theorem ceilDiv_bits (count : Nat) : ceilDiv count bitsPerChunk = (count + 255) / 256 := by
  unfold ceilDiv bitsPerChunk bytesPerChunk
  omega

theorem bits_room {count : Nat} (h : count ≤ maxCount) : (count + 255) / 256 ≤ maxCount := by
  unfold maxCount at *
  omega

/-- Chunks of packed bits can be counted in bits or in bytes. -/
theorem chunks_of_bits (bits : Bits) :
    (bits.length + 255) / 256 = (bits.bytes.length + 31) / 32 := by
  rw [bits.length_bytes, ceilDiv]
  omega

theorem root_singleton (chunk : Chunk) : DenseTree.root [chunk] 1 = chunk := by
  rw [DenseTree.root, if_neg Nat.one_ne_zero, Nat.clog_one_right]
  rfl

theorem bytesRoot_eq_padded {bytes : Bytes} (hne : bytes ≠ [])
    (hle : bytes.length ≤ bytesPerChunk) : bytesRoot bytes = .padded _ bytes := by
  rw [bytesRoot, leaves_eq_singleton hne hle]
  exact root_singleton _

/-! ## Scalars -/

theorem scalarBytes_eq_layout {element : Shape} {v : Value} (hbasic : element.isBasic = true)
    (hcheck : element.check v = .ok ()) :
    scalarBytes v = .ok (element.layout v) ∧ (element.layout v).length = element.prefixSize := by
  cases element with
  | bool =>
    obtain ⟨b, rfl⟩ := check_bool.1 hcheck
    exact ⟨rfl, rfl⟩
  | uint width =>
    obtain ⟨n, rfl⟩ := check_uint.1 hcheck
    rw [layout_uint]
    exact ⟨rfl, length_littleEndian _ _⟩
  | _ => cases hbasic

theorem prefixSize_bounds {element : Shape} (hbasic : element.isBasic = true) :
    0 < element.prefixSize ∧ element.prefixSize ≤ bytesPerChunk ∧
      element.fixedSize?.getD bytesPerChunk = element.prefixSize := by
  cases element with
  | bool => decide
  | uint width => cases width <;> decide
  | _ => cases hbasic

theorem weight_pos (element : Shape) : 0 < element.weight := by
  unfold weight
  split
  · rename_i hbasic
    exact (prefixSize_bounds hbasic).1
  · exact Nat.one_pos

theorem padded_scalar {element : Shape} {v : Value} (hbasic : element.isBasic = true)
    (hcheck : element.check v = .ok ()) :
    ByteVector.padded bytesPerChunk (element.layout v) = bytesRoot (element.layout v) := by
  obtain ⟨-, hlength⟩ := scalarBytes_eq_layout hbasic hcheck
  obtain ⟨hpos, hle, -⟩ := prefixSize_bounds hbasic
  refine (bytesRoot_eq_padded ?_ ?_).symm
  · exact List.length_pos_iff.1 (by rwa [hlength])
  · rwa [hlength]

theorem length_flatten_layout {element : Shape} {items : List Value}
    (hbasic : element.isBasic = true) (hitems : ∀ item ∈ items, element.check item = .ok ()) :
    (items.map fun item => element.layout item).flatten.length
      = items.length * element.prefixSize := by
  have hparts : ∀ part ∈ items.map fun item => element.layout item,
      part.length = element.prefixSize := by
    intro part hpart
    obtain ⟨item, hitem, rfl⟩ := List.mem_map.1 hpart
    exact (scalarBytes_eq_layout hbasic (hitems item hitem)).2
  rw [length_flatten_of_forall hparts, List.length_map, Nat.mul_comm]

/-- Well-formed scalars are packed as they are laid out. -/
theorem packedRoot_eq_merkleize {element : Shape} {items : List Value}
    (hbasic : element.isBasic = true) (hitems : ∀ item ∈ items, element.check item = .ok ())
    (capacity : Nat) :
    packedRoot items (element.fixedSize?.getD bytesPerChunk) capacity
      = merkleize (packChunks (items.map fun item => element.layout item).flatten)
          (chunkCount capacity element.prefixSize) := by
  obtain ⟨-, -, hsize⟩ := prefixSize_bounds hbasic
  have hbodies : items.mapM scalarBytes = .ok (items.map fun item => element.layout item) :=
    mapM_eq_ok_map fun item hitem => (scalarBytes_eq_layout hbasic (hitems item hitem)).1
  rw [packedRoot, hsize, hbodies]
  rfl

theorem packedRoot_eq {element : Shape} {items : List Value} {capacity : Nat}
    (hbasic : element.isBasic = true) (hitems : ∀ item ∈ items, element.check item = .ok ())
    (hcount : items.length ≤ capacity) (hbound : capacity * element.prefixSize ≤ maxCount) :
    packedRoot items (element.fixedSize?.getD bytesPerChunk) capacity
      = .ok (DenseTree.root (leaves (items.map fun item => element.layout item).flatten)
          ((capacity * element.prefixSize + 31) / 32)) := by
  have hmul : items.length * element.prefixSize ≤ capacity * element.prefixSize :=
    Nat.mul_le_mul_right _ hcount
  rw [packedRoot_eq_merkleize hbasic hitems, chunkCount_eq hbound]
  refine merkleize_packChunks _ ?_ ?_
  · rw [length_flatten_layout hbasic hitems]
    exact Nat.div_le_div_right (Nat.add_le_add_right hmul 31)
  · omega

/-! ## Records and unions -/

theorem length_digestFields {fields : List (Field Shape)} {values : List Value}
    (hlength : values.length = fields.length) :
    (digestFields fields values).length = fields.length := by
  induction fields generalizing values with
  | nil => rfl
  | cons field fields ih =>
    cases values with
    | nil => cases hlength
    | cons v values =>
      rw [digestFields, List.length_cons, List.length_cons, ih (Nat.succ.inj hlength)]

theorem fieldRoots_eq {fields : List (Field Shape)} {values : List Value}
    (h : List.Forall₂ (fun field v => field.shape.root v = .ok (field.shape.digest v))
      fields values) : fieldRoots fields values = .ok (digestFields fields values) := by
  induction h with
  | nil => rfl
  | @cons field v fields values hv _ ih =>
    rw [fieldRoots, hv, ih]
    rfl

theorem chosenRoot_none (alternatives : List (Option Shape)) (index : Nat) :
    chosenRoot alternatives index none = .ok (digestChosen alternatives index none) := by
  induction alternatives generalizing index with
  | nil => rfl
  | cons choice alternatives ih =>
    cases index with
    | zero => cases choice <;> rfl
    | succ index => cases choice <;> exact ih index

theorem chosenRoot_some {alternatives : List (Option Shape)} {index : Nat} {shape : Shape}
    {inner : Value} (hshape : alternatives[index]? = some (some shape))
    (hinner : shape.root inner = .ok (shape.digest inner)) :
    chosenRoot alternatives index (some inner)
      = .ok (digestChosen alternatives index (some inner)) := by
  refine chosen_induction hshape ?_ ?_
  · intro rest
    exact hinner
  · intro choice rest index ih
    cases choice <;> exact ih

/-! ## Shape by shape -/

theorem root_scalar {element : Shape} {v : Value} (hbasic : element.isBasic = true)
    (hcheck : element.check v = .ok ()) : element.root v = .ok (element.digest v) := by
  obtain ⟨hbytes, -⟩ := scalarBytes_eq_layout hbasic hcheck
  have hpadded := padded_scalar hbasic hcheck
  cases element with
  | bool =>
    rw [root, hbytes, digest, ← hpadded]
    rfl
  | uint width =>
    rw [root, hbytes, digest, ← hpadded]
    rfl
  | _ => cases hbasic

theorem chunkCount_bytes {count : Nat} (h : count ≤ maxCount) :
    chunkCount count 1 = (count + 31) / 32 := by
  rw [chunkCount_eq (by rwa [Nat.mul_one]), Nat.mul_one]

theorem root_byteVector {contents : Bytes} (hbound : contents.length ≤ maxCount) :
    root (.byteVector contents.length) (.bytes contents)
      = .ok (digest (.byteVector contents.length) (.bytes contents)) := by
  rw [root, chunkCount_bytes hbound]
  exact merkleize_packChunks_self rfl (by omega)

theorem root_byteList {max : Nat} {contents : Bytes} (hmax : contents.length ≤ max)
    (hbound : max ≤ maxCount) :
    root (.byteList max) (.bytes contents) = .ok (digest (.byteList max) (.bytes contents)) := by
  have htree : merkleize (packChunks contents) ((max + 31) / 32)
      = .ok (DenseTree.root (leaves contents) ((max + 31) / 32)) := by
    refine merkleize_packChunks _ ?_ (by omega)
    exact Nat.div_le_div_right (Nat.add_le_add_right hmax 31)
  rw [root, chunkCount_bytes hbound, htree, digest, ← mixInLength_eq _ (hmax.trans hbound)]
  rfl

/-- A bitlist without its sentinel looks like a bitvector. -/
theorem layout_bits (contents : Bits) :
    layout (.bitVector contents.length) (.bits contents) = contents.bytes :=
  contents.bytes_eq_packed.symm

theorem root_bitVector {contents : Bits} (hbound : contents.length ≤ maxCount) :
    root (.bitVector contents.length) (.bits contents)
      = .ok (digest (.bitVector contents.length) (.bits contents)) := by
  rw [root, digest, layout_bits]
  exact merkleize_packChunks_self (chunks_of_bits contents) (bits_room hbound)

theorem root_bitList {max : Nat} {contents : Bits} (hmax : contents.length ≤ max)
    (hbound : max ≤ maxCount) :
    root (.bitList max) (.bits contents) = .ok (digest (.bitList max) (.bits contents)) := by
  have htree : merkleize (packChunks contents.bytes) ((max + 255) / 256)
      = .ok (DenseTree.root (leaves contents.bytes) ((max + 255) / 256)) := by
    refine merkleize_packChunks _ ?_ (bits_room hbound)
    rw [← chunks_of_bits]
    exact Nat.div_le_div_right (Nat.add_le_add_right hmax 255)
  rw [root, ceilDiv_bits, htree, digest, layout_bits, ← mixInLength_eq _ (hmax.trans hbound)]
  rfl

/-- The content of a sequence of anything but scalars has one leaf for each element. -/
theorem merkleize_digests (element : Shape) {items : List Value} {capacity : Nat}
    (hcount : items.length ≤ capacity) (hbound : capacity ≤ maxCount) :
    merkleize (items.map fun item => element.digest item) capacity
      = .ok (DenseTree.root (items.map fun item => element.digest item) capacity) := by
  refine DenseTree.merkleize_eq_root ?_ (room_of_le_maxCount hbound)
  rwa [List.length_map]

theorem root_vector {element : Shape} {items : List Value}
    (hitems : ∀ item ∈ items, element.check item = .ok ())
    (hroots : ∀ item ∈ items, element.root item = .ok (element.digest item))
    (hbound : items.length * element.weight ≤ maxCount) :
    root (.vector element items.length) (.list items)
      = .ok (digest (.vector element items.length) (.list items)) := by
  rw [root, digest]
  by_cases hbasic : element.isBasic = true
  · rw [weight, if_pos hbasic] at hbound
    rw [if_pos hbasic, if_pos hbasic, packedRoot_eq hbasic hitems (Nat.le_refl _) hbound, bytesRoot,
      length_leaves, length_flatten_layout hbasic hitems]
  · rw [weight, if_neg hbasic, Nat.mul_one] at hbound
    have htree := merkleize_digests element (Nat.le_refl items.length) hbound
    rw [if_neg hbasic, if_neg hbasic]
    exact bind_eq_ok.2 ⟨_, mapM_eq_ok_map hroots, htree⟩

theorem root_list {element : Shape} {max : Nat} {items : List Value} (hmax : items.length ≤ max)
    (hitems : ∀ item ∈ items, element.check item = .ok ())
    (hroots : ∀ item ∈ items, element.root item = .ok (element.digest item))
    (hbound : max * element.weight ≤ maxCount) :
    root (.list element max) (.list items) = .ok (digest (.list element max) (.list items)) := by
  have hlength : items.length ≤ maxCount := by
    calc items.length ≤ max := hmax
      _ ≤ max * element.weight := Nat.le_mul_of_pos_right max element.weight_pos
      _ ≤ maxCount := hbound
  rw [root, digest, ← mixInLength_eq _ hlength]
  by_cases hbasic : element.isBasic = true
  · rw [weight, if_pos hbasic] at hbound
    rw [if_pos hbasic, if_pos hbasic, packedRoot_eq hbasic hitems hmax hbound]
    rfl
  · rw [weight, if_neg hbasic, Nat.mul_one] at hbound
    have htree := merkleize_digests element hmax hbound
    rw [if_neg hbasic, if_neg hbasic]
    exact bind_eq_ok.2 ⟨_, mapM_eq_ok_map hroots, bind_eq_ok.2 ⟨_, htree, rfl⟩⟩

theorem root_container {name : String} {fields : List (Field Shape)} {values : List Value}
    (hroots : List.Forall₂ (fun field v => field.shape.root v = .ok (field.shape.digest v))
      fields values) (hbound : fields.length ≤ maxCount) :
    root (.container name fields) (.container values)
      = .ok (digest (.container name fields) (.container values)) := by
  have hlength := length_digestFields hroots.length_eq.symm
  rw [root, fieldRoots_eq hroots, digest, ← hlength]
  refine DenseTree.merkleize_eq_root (Nat.le_refl _) (room_of_le_maxCount ?_)
  rwa [hlength]

theorem root_union {alternatives : List (Option Shape)} {selector : UInt8} {inner : Option Value}
    (hinner : chosenRoot alternatives selector.toNat inner
      = .ok (digestChosen alternatives selector.toNat inner)) :
    root (.union alternatives) (.union selector inner)
      = .ok (digest (.union alternatives) (.union selector inner)) := by
  rw [root, hinner, digest, ← mixInSelector_eq]
  rfl

theorem root_eq_digest {shape : Shape} {v : Value} (hcheck : shape.check v = .ok ())
    (hbounded : shape.Bounded) : shape.root v = .ok (shape.digest v) := by
  induction shape generalizing v with
  | bool => exact root_scalar rfl hcheck
  | uint width => exact root_scalar rfl hcheck
  | byteVector length =>
    obtain ⟨contents, rfl, rfl⟩ := check_byteVector.1 hcheck
    cases hbounded with
    | byteVector hbound => exact root_byteVector hbound
  | byteList max =>
    obtain ⟨contents, rfl, hmax⟩ := check_byteList.1 hcheck
    cases hbounded with
    | byteList hbound => exact root_byteList hmax hbound
  | bitVector length =>
    obtain ⟨contents, rfl, rfl⟩ := check_bitVector.1 hcheck
    cases hbounded with
    | bitVector hbound => exact root_bitVector hbound
  | bitList max =>
    obtain ⟨contents, rfl, hmax⟩ := check_bitList.1 hcheck
    cases hbounded with
    | bitList hbound => exact root_bitList hmax hbound
  | vector element length ih =>
    obtain ⟨items, rfl, rfl, hitems⟩ := check_vector.1 hcheck
    cases hbounded with
    | vector hbound helement =>
      exact root_vector hitems (fun item hitem => ih (hitems item hitem) helement) hbound
  | list element max ih =>
    obtain ⟨items, rfl, hmax, hitems⟩ := check_list.1 hcheck
    cases hbounded with
    | list hbound helement =>
      exact root_list hmax hitems (fun item hitem => ih (hitems item hitem) helement) hbound
  | container name fields ih =>
    obtain ⟨values, rfl, hvalues⟩ := check_container.1 hcheck
    cases hbounded with
    | container hbound hfields =>
      refine root_container (forall₂_imp_of_mem hvalues ?_) hbound
      intro field hfield v hv
      exact ih field hfield hv (hfields field hfield)
  | union alternatives ih =>
    cases hbounded with
    | union hshapes =>
      obtain ⟨rfl, -⟩ | ⟨selector, shape, inner, rfl, hshape, hinner⟩ := check_union.1 hcheck
      · exact root_union (chosenRoot_none _ _)
      · have hmem := List.mem_of_getElem? hshape
        exact root_union (chosenRoot_some hshape (ih shape hmem hinner (hshapes shape hmem)))

end Shape

theorem hashTreeRoot_of_check {shape : Shape} {v : Value} (hcheck : shape.check v = .ok ()) :
    hashTreeRoot shape v = shape.root v := by
  rw [hashTreeRoot, hcheck]
  rfl

/-- A well-formed value is hashed to its digest. -/
theorem hashTreeRoot_eq_digest {shape : Shape} {v : Value} (hcheck : shape.check v = .ok ())
    (hbounded : shape.Bounded) : hashTreeRoot shape v = .ok (shape.digest v) := by
  rw [hashTreeRoot, hcheck]
  exact Shape.root_eq_digest hcheck hbounded

theorem hashTreeRoot_eq_digest_account :
    let shape : Shape := .container "account" [⟨"slot", "slot", .uint .u64⟩,
      ⟨"balances", "balances", .list (.uint .u64) 5⟩]
    let v : Value := .container [.uint .u64 7, .list [.uint .u64 1, .uint .u64 2]]
    let slot : Chunk := .padded _ [7]
    let balances : Chunk := .padded _ [1, 0, 0, 0, 0, 0, 0, 0, 2]
    shape.check v = .ok () ∧ shape.Bounded ∧
      hashTreeRoot shape v
        = .ok (hashPair slot (hashPair (hashPair balances (.zero _)) (.padded _ [2]))) := by
  intro shape v slot balances
  have hcheck : shape.check v = .ok () := by rfl
  have hbounded : shape.Bounded := by
    refine .container (by decide) fun field hfield => ?_
    rcases List.mem_cons.1 hfield with rfl | hfield
    · exact .uint
    · rcases List.mem_singleton.1 hfield with rfl
      exact .list (by decide) .uint
  exact ⟨hcheck, hbounded, hashTreeRoot_eq_digest hcheck hbounded⟩

end Ssz
