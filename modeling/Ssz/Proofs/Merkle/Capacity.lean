-- SUMMARY: The tree over a list of scalars has the depth of its capacity, up to 2^64 bytes.
import Ssz.Proofs.Merkle.Digest
import Ssz.Proofs.Merkle.Sparse

/-!
# Capacities in bytes

How many chunks a list of scalars has room for is counted by way of its bytes, and a
count of bytes stops at the largest number of 64 bits. A capacity of up to `2 ^ 64`
bytes is hashed in a tree of the depth that it asks for. Any larger one is hashed as
if it was one of `2 ^ 64` bytes, in 59 layers, so that the root no longer tells the
capacities apart.
-/

namespace Ssz

open DenseTree SparseTree

/-! ## Chunks -/

/-- The chunks that a capacity takes, whatever its size. -/
def exactChunks (capacity size : Nat) : Nat := ceilDiv (capacity * size) bytesPerChunk

/-- To stop at the largest count of bytes is to stop at `2 ^ 59` chunks. -/
theorem chunkCount_eq_min (capacity size : Nat) :
    chunkCount capacity size = min (exactChunks capacity size) (2 ^ 59) := by
  unfold chunkCount exactChunks ceilDiv maxCount bytesPerChunk
  generalize capacity * size = bytes
  omega

theorem chunkCount_of_large {capacity size : Nat} (h : 2 ^ 64 ≤ capacity * size) :
    chunkCount capacity size = 2 ^ 59 := by
  have hexact : 2 ^ 59 ≤ exactChunks capacity size := by
    unfold exactChunks ceilDiv bytesPerChunk
    omega
  rw [chunkCount_eq_min, Nat.min_eq_right hexact]

theorem exactChunks_le_iff {capacity size : Nat} :
    exactChunks capacity size ≤ 2 ^ 59 ↔ capacity * size ≤ 2 ^ 64 := by
  unfold exactChunks ceilDiv bytesPerChunk
  generalize capacity * size = bytes
  omega

theorem exactChunks_mono {count capacity : Nat} (h : count ≤ capacity) (size : Nat) :
    exactChunks count size ≤ exactChunks capacity size :=
  Nat.div_le_div_right (Nat.add_le_add_right (Nat.mul_le_mul_right size h) 31)

/-- A power of two of scalars that fill a chunk each asks for a layer for each doubling. -/
theorem isLeast_exactChunks_pow (n : Nat) :
    IsLeast {d | exactChunks (2 ^ n) bytesPerChunk ≤ 2 ^ d} n := by
  have hexact : exactChunks (2 ^ n) bytesPerChunk = 2 ^ n := by
    unfold exactChunks ceilDiv bytesPerChunk
    omega
  simp only [hexact, Nat.pow_le_pow_iff_right Nat.one_lt_two]
  exact isLeast_Ici

/-! ## Depth -/

/-- Layers of the tree over scalars of `size` bytes each, with room for `capacity` of them. -/
def packedDepth (capacity size : Nat) : Nat := treeDepth (chunkCount capacity size)

theorem chunkCount_le_pow (capacity size : Nat) : chunkCount capacity size ≤ 2 ^ maxTreeDepth := by
  rw [chunkCount_eq_min]
  exact (Nat.min_le_right _ _).trans (Nat.pow_le_pow_right Nat.two_pos (by decide))

theorem isLeast_packedDepth (capacity size : Nat) :
    IsLeast {d | min (exactChunks capacity size) (2 ^ 59) ≤ 2 ^ d} (packedDepth capacity size) := by
  rw [← chunkCount_eq_min]
  exact isLeast_treeDepth (chunkCount_le_pow capacity size)

theorem packedDepth_le (capacity size : Nat) : packedDepth capacity size ≤ 59 :=
  (isLeast_packedDepth capacity size).2 (Nat.min_le_right _ _)

/-- The depth is that of the capacity up to `2 ^ 64` bytes, and never beyond. -/
theorem isLeast_packedDepth_iff {capacity size : Nat} :
    IsLeast {d | exactChunks capacity size ≤ 2 ^ d} (packedDepth capacity size) ↔
      capacity * size ≤ 2 ^ 64 := by
  rw [← exactChunks_le_iff]
  constructor
  · intro hleast
    exact hleast.1.trans (Nat.pow_le_pow_right Nat.two_pos (packedDepth_le capacity size))
  · intro hexact
    have hleast := isLeast_packedDepth capacity size
    rwa [Nat.min_eq_left hexact] at hleast

theorem packedDepth_of_large {capacity size : Nat} (h : 2 ^ 64 ≤ capacity * size) :
    packedDepth capacity size = 59 := by
  rw [packedDepth, chunkCount_of_large h, treeDepth_eq_clog (by decide),
    Nat.clog_pow 2 59 Nat.one_lt_two]

theorem exactChunks_le_pow_iff {capacity size : Nat} (h : capacity * size ≤ 2 ^ 64) (d : Nat) :
    exactChunks capacity size ≤ 2 ^ d ↔ packedDepth capacity size ≤ d := by
  obtain ⟨hroom, hleast⟩ := isLeast_packedDepth_iff.2 h
  constructor
  · intro hd
    exact hleast hd
  · intro hd
    exact hroom.trans (Nat.pow_le_pow_right Nat.two_pos hd)

/-- Two capacities have trees of the same depth exactly if no power of two comes between them. -/
theorem packedDepth_eq_iff {capacity other size : Nat} (hcapacity : capacity * size ≤ 2 ^ 64)
    (hother : other * size ≤ 2 ^ 64) : packedDepth other size = packedDepth capacity size ↔
      ∀ d, exactChunks capacity size ≤ 2 ^ d ↔ exactChunks other size ≤ 2 ^ d := by
  simp only [exactChunks_le_pow_iff hcapacity, exactChunks_le_pow_iff hother]
  constructor
  · intro hdepth d
    rw [hdepth]
  · intro hround
    exact Nat.le_antisymm ((hround _).1 (Nat.le_refl _)) ((hround _).2 (Nat.le_refl _))

/-! ## Roots -/

namespace Shape

/-- The root over scalars in a tree of so many layers that is written out in full. -/
def packedTop (element : Shape) (items : List Value) (depth : Nat) : Chunk :=
  top depth (filled (leaves (items.map fun item => element.layout item).flatten) depth)

variable {element : Shape} {items : List Value} {capacity : Nat}

theorem root_list_eq_merkleize (hbasic : element.isBasic = true)
    (hitems : ∀ item ∈ items, element.check item = .ok ()) :
    root (.list element capacity) (.list items)
      = (mixInLength · items.length) <$>
          merkleize (leaves (items.map fun item => element.layout item).flatten)
            (chunkCount capacity element.prefixSize) := by
  rw [root, if_pos hbasic, packedRoot_eq_merkleize hbasic hitems, packChunks_eq_leaves]
  rfl

theorem merkleize_scalars_eq_top (hbasic : element.isBasic = true)
    (hitems : ∀ item ∈ items, element.check item = .ok ()) (hcount : items.length ≤ capacity)
    (hstored : items.length * element.prefixSize ≤ 2 ^ 64) :
    merkleize (leaves (items.map fun item => element.layout item).flatten)
        (chunkCount capacity element.prefixSize)
      = .ok (element.packedTop items (packedDepth capacity element.prefixSize)) := by
  have hroom : (leaves (items.map fun item => element.layout item).flatten).length
      ≤ chunkCount capacity element.prefixSize := by
    rw [length_leaves, length_flatten_layout hbasic hitems, chunkCount_eq_min]
    exact Nat.le_min.2 ⟨exactChunks_mono hcount _, exactChunks_le_iff.2 hstored⟩
  exact merkleize_eq_top hroom (chunkCount_le_pow capacity element.prefixSize)

/-- The value is a list of scalars, and its root is that of the full tree of so many layers over
    them, bound to their number. -/
def HashedOver (element : Shape) (capacity : Nat) (v : Value) (depth : Nat) : Prop :=
  ∃ items, v = .list items ∧
    hashTreeRoot (.list element capacity) v
      = .ok (mixInLength (element.packedTop items depth) items.length)

theorem hashedOver_packedDepth (hbasic : element.isBasic = true)
    (hcheck : (list element capacity).check (.list items) = .ok ())
    (hstored : items.length * element.prefixSize ≤ 2 ^ 64) :
    element.HashedOver capacity (.list items) (packedDepth capacity element.prefixSize) := by
  refine ⟨items, rfl, ?_⟩
  obtain ⟨_, ⟨⟩, hcount, hitems⟩ := check_list.1 hcheck
  rw [hashTreeRoot_of_check hcheck, root_list_eq_merkleize hbasic hitems,
    merkleize_scalars_eq_top hbasic hitems hcount hstored]
  rfl

/-- Up to `2 ^ 64` bytes, a list of scalars is hashed over a tree of the least depth that has room
    for the capacity, so that capacities with a power of two between them have trees of different
    depths. -/
theorem hashedOver_of_capacity {v : Value} (hbasic : element.isBasic = true)
    (hcapacity : capacity * element.prefixSize ≤ 2 ^ 64)
    (hcheck : (list element capacity).check v = .ok ()) :
    element.HashedOver capacity v (packedDepth capacity element.prefixSize) ∧
      IsLeast {d | exactChunks capacity element.prefixSize ≤ 2 ^ d}
        (packedDepth capacity element.prefixSize) ∧
      ∀ other, other * element.prefixSize ≤ 2 ^ 64 →
        (packedDepth other element.prefixSize = packedDepth capacity element.prefixSize ↔
          ∀ d, exactChunks capacity element.prefixSize ≤ 2 ^ d ↔
            exactChunks other element.prefixSize ≤ 2 ^ d) := by
  obtain ⟨items, rfl, hcount, -⟩ := check_list.1 hcheck
  have hstored := (Nat.mul_le_mul_right element.prefixSize hcount).trans hcapacity
  exact ⟨hashedOver_packedDepth hbasic hcheck hstored, isLeast_packedDepth_iff.2 hcapacity,
    fun other hother => packedDepth_eq_iff hcapacity hother⟩

/-- Numbers of 8 bytes under a capacity of `2 ^ 64` bytes. -/
theorem hashedOver_of_capacity_numbers :
    let v : Value := .list [.uint .u64 7]
    (list (.uint .u64) (2 ^ 61)).check v = .ok () ∧
      (uint .u64).HashedOver (2 ^ 61) v (packedDepth (2 ^ 61) 8) ∧
      IsLeast {d | exactChunks (2 ^ 61) 8 ≤ 2 ^ d} (packedDepth (2 ^ 61) 8) := by
  intro v
  have hcheck : (list (.uint .u64) (2 ^ 61)).check v = .ok () := by decide
  obtain ⟨hroot, hdepth, -⟩ :=
    @hashedOver_of_capacity (.uint .u64) (2 ^ 61) v rfl (by decide) hcheck
  exact ⟨hcheck, hroot, hdepth⟩

/-- Beyond `2 ^ 64` bytes one capacity is like any other. -/
theorem hashTreeRoot_of_large {other : Nat} {v : Value} (hbasic : element.isBasic = true)
    (hcapacity : 2 ^ 64 ≤ capacity * element.prefixSize)
    (hother : 2 ^ 64 ≤ other * element.prefixSize)
    (hcheck : (list element capacity).check v = .ok ())
    (hcheck' : (list element other).check v = .ok ()) :
    hashTreeRoot (.list element other) v = hashTreeRoot (.list element capacity) v := by
  obtain ⟨items, rfl, -, hitems⟩ := check_list.1 hcheck
  rw [hashTreeRoot_of_check hcheck, hashTreeRoot_of_check hcheck',
    root_list_eq_merkleize hbasic hitems, root_list_eq_merkleize hbasic hitems,
    chunkCount_of_large hcapacity, chunkCount_of_large hother]

/-- A capacity of `2 ^ 60` numbers of 32 bytes asks for 60 layers. There are 59, and the root is the
    same as under half the capacity. -/
theorem packedDepth_too_small :
    let v : Value := .list [.uint .u256 7]
    (list (.uint .u256) (2 ^ 60)).check v = .ok () ∧
      (uint .u256).HashedOver (2 ^ 60) v 59 ∧
      IsLeast {d | exactChunks (2 ^ 60) 32 ≤ 2 ^ d} 60 ∧
      IsLeast {d | exactChunks (2 ^ 59) 32 ≤ 2 ^ d} 59 ∧
      hashTreeRoot (.list (.uint .u256) (2 ^ 60)) v
        = hashTreeRoot (.list (.uint .u256) (2 ^ 59)) v := by
  intro v
  have hcheck : (list (.uint .u256) (2 ^ 60)).check v = .ok () := by decide
  have hcheck' : (list (.uint .u256) (2 ^ 59)).check v = .ok () := by decide
  -- Both are too large, one of them by nothing, so that they are hashed alike.
  have hlarge : 2 ^ 64 ≤ 2 ^ 60 * (uint .u256).prefixSize := by decide
  have hlarge' : 2 ^ 64 ≤ 2 ^ 59 * (uint .u256).prefixSize := by decide
  have hroot := @hashedOver_packedDepth (.uint .u256) _ _ rfl hcheck (by decide)
  rw [packedDepth_of_large hlarge] at hroot
  exact ⟨hcheck, hroot, isLeast_exactChunks_pow 60, isLeast_exactChunks_pow 59,
    hashTreeRoot_of_large rfl hlarge' hlarge hcheck' hcheck⟩

end Shape

end Ssz
