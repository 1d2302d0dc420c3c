-- SUMMARY: The sparse hash tree has the root of the tree that is filled up with zero chunks.
import Mathlib.Algebra.Group.Nat.Defs
import Mathlib.Data.Nat.Log
import Ssz.Merkle.Tree
import Ssz.Proofs.Except

/-!
# Filled hash trees

The root is defined here over a tree that is written out in full: the leaves are
filled up with zero chunks to a power of two and hashed in pairs, layer by layer.
The hasher leaves the zero chunks out and takes the roots of the subtrees over
them from a table. At each layer it holds the front of the full layer, and what
is missing are copies of the entry of the table for that layer.
-/

namespace Ssz.DenseTree

/-! ## The full tree -/

/-- Neighbours are hashed in pairs. -/
def pairs : List Chunk → List Chunk
  | left :: right :: layer => hashPair left right :: pairs layer
  | layer => layer

/-- The top of a tree over `2 ^ depth` leaves. -/
def top : (depth : Nat) → (leaves : List Chunk) → Chunk
  | 0, leaves => leaves.headD (.zero _)
  | depth + 1, leaves => top depth (pairs leaves)

/-- The root over the leaves, filled up with zero chunks to the power of two next to the limit. A
    tree without room has the zero chunk for its root. -/
def root (leaves : List Chunk) (limit : Nat) : Chunk :=
  if limit = 0 then .zero _
  else
    let depth := Nat.clog 2 limit
    top depth (leaves ++ List.replicate (2 ^ depth - leaves.length) (.zero _))

/-! ## The table of zero subtrees -/

theorem getD_zeroRootsFrom (root other : Chunk) (count : Nat) :
    (zeroRootsFrom root count).getD 0 other = root := by
  cases count <;> rfl

theorem zeroRootsFrom_succ (root other : Chunk) {count level : Nat} (h : level < count) :
    (zeroRootsFrom root count).getD (level + 1) other
      = hashPair ((zeroRootsFrom root count).getD level other)
          ((zeroRootsFrom root count).getD level other) := by
  induction count generalizing root level with
  | zero => cases h
  | succ count ih =>
    cases level with
    | zero => exact getD_zeroRootsFrom _ _ _
    | succ level => exact ih (hashPair root root) (Nat.lt_of_succ_lt_succ h)

theorem zeroRoot_zero : zeroRoot 0 = .zero _ := getD_zeroRootsFrom _ _ _

/-- Each entry of the table is the root over two copies of the one before. -/
theorem zeroRoot_succ {level : Nat} (h : level < maxTreeDepth) :
    zeroRoot (level + 1) = hashPair (zeroRoot level) (zeroRoot level) :=
  zeroRootsFrom_succ _ _ h

/-! ## Depth -/

theorem ceilLog2_eq_clog (n : Nat) : ceilLog2 n = Nat.clog 2 n := by
  unfold ceilLog2
  split
  · rename_i hsmall
    exact (Nat.clog_of_right_le_one hsmall 2).symm
  · rename_i hlarge
    have hne : n - 1 ≠ 0 := by omega
    have hle : ∀ d, (n - 1).log2 + 1 ≤ d ↔ Nat.clog 2 n ≤ d := by
      intro d
      calc (n - 1).log2 + 1 ≤ d ↔ n - 1 < 2 ^ d := Nat.log2_lt hne
        _ ↔ n ≤ 2 ^ d := by omega
        _ ↔ Nat.clog 2 n ≤ d := (Nat.clog_le_iff_le_pow Nat.one_lt_two).symm
    exact Nat.le_antisymm ((hle _).2 (Nat.le_refl _)) ((hle _).1 (Nat.le_refl _))

theorem clog_le_maxTreeDepth {limit : Nat} (h : limit ≤ 2 ^ maxTreeDepth) :
    Nat.clog 2 limit ≤ maxTreeDepth := Nat.clog_le_of_le_pow h

theorem treeDepth_eq_clog {limit : Nat} (h : limit ≤ 2 ^ maxTreeDepth) :
    treeDepth limit = Nat.clog 2 limit := by
  rw [treeDepth, ceilLog2_eq_clog]
  exact Nat.min_eq_left (clog_le_maxTreeDepth h)

/-! ## Layers -/

theorem length_pairUp (filler : Chunk) (layer : List Chunk) :
    (pairUp filler layer).length = (layer.length + 1) / 2 := by
  induction layer using pairUp.induct with
  | case1 left right layer ih =>
    rw [pairUp, List.length_cons, ih, List.length_cons, List.length_cons]
    omega
  | case2 left => simp [pairUp]
  | case3 => rfl

theorem pairs_replicate (filler : Chunk) (width : Nat) :
    pairs (List.replicate (2 * width) filler)
      = List.replicate width (hashPair filler filler) := by
  induction width with
  | zero => rfl
  | succ width ih =>
    rw [Nat.mul_succ, List.replicate_succ, List.replicate_succ, pairs, ih, ← List.replicate_succ]

/-- Pairing the front of a layer, and filling up what comes out, is pairing the full layer. -/
theorem pairs_fill (filler : Chunk) (layer : List Chunk) {width : Nat}
    (h : layer.length ≤ 2 * width) :
    pairs (layer ++ List.replicate (2 * width - layer.length) filler)
      = pairUp filler layer
        ++ List.replicate (width - (pairUp filler layer).length) (hashPair filler filler) := by
  induction layer using pairUp.induct generalizing width with
  | case1 left right layer ih =>
    obtain ⟨width, rfl⟩ : ∃ n, width = n + 1 := ⟨width - 1, by simp at h; omega⟩
    have hlayer : layer.length ≤ 2 * width := by simp at h; omega
    have hcount : 2 * (width + 1) - (left :: right :: layer).length = 2 * width - layer.length := by
      simp
      omega
    rw [hcount, List.cons_append, List.cons_append, pairs, ih hlayer, pairUp, List.cons_append,
      List.length_cons, Nat.add_sub_add_right]
  | case2 left =>
    obtain ⟨width, rfl⟩ : ∃ n, width = n + 1 := ⟨width - 1, by simp at h; omega⟩
    have hcount : 2 * (width + 1) - [left].length = 2 * width + 1 := by simp; omega
    rw [hcount, List.replicate_succ, List.cons_append, List.nil_append, pairs, pairs_replicate]
    rfl
  | case3 =>
    rw [List.nil_append, List.length_nil, Nat.sub_zero, pairs_replicate, pairUp, List.nil_append,
      List.length_nil, Nat.sub_zero]

/-- The layer that is held, filled up with the entry of the table, is the full layer. -/
theorem climb_eq_top {level count : Nat} {layer : List Chunk}
    (hlevel : level + count ≤ maxTreeDepth) (hlayer : layer.length ≤ 2 ^ count) :
    climb level count layer
      = top count (layer ++ List.replicate (2 ^ count - layer.length) (zeroRoot level)) := by
  induction count generalizing level layer with
  | zero =>
    cases layer with
    | nil => rfl
    | cons chunk layer => rfl
  | succ count ih =>
    have hpow : 2 ^ (count + 1) = 2 * 2 ^ count := Nat.pow_succ'
    rw [hpow] at hlayer ⊢
    have hnext : (pairUp (zeroRoot level) layer).length ≤ 2 ^ count := by
      rw [length_pairUp]
      omega
    rw [climb, top, pairs_fill _ _ hlayer, ← zeroRoot_succ (by omega), ih (by omega) hnext]

theorem climb_nil (level count : Nat) : climb level count [] = zeroRoot (level + count) := by
  induction count generalizing level with
  | zero => rfl
  | succ count ih => rw [climb, pairUp, ih, Nat.add_right_comm, Nat.add_assoc]

/-- The hasher computes the root of the full tree. -/
theorem merkleize_eq_root {chunks : List Chunk} {limit : Nat} (hchunks : chunks.length ≤ limit)
    (hlimit : limit ≤ 2 ^ maxTreeDepth) : merkleize chunks limit = .ok (root chunks limit) := by
  rw [merkleize, if_neg (Nat.not_lt.2 hchunks), root]
  by_cases hzero : limit = 0
  · rw [if_pos hzero, if_pos hzero]
  · have hclimb : climb 0 (Nat.clog 2 limit) chunks
        = top (Nat.clog 2 limit)
            (chunks ++ List.replicate (2 ^ Nat.clog 2 limit - chunks.length) (.zero _)) := by
      rw [← zeroRoot_zero]
      refine climb_eq_top ?_ ?_
      · rw [Nat.zero_add]
        exact clog_le_maxTreeDepth hlimit
      · exact hchunks.trans (Nat.le_pow_clog Nat.one_lt_two limit)
    rw [if_neg hzero, if_neg hzero, treeDepth_eq_clog hlimit, ← hclimb]
    cases chunks with
    | nil => rw [climb_nil, Nat.zero_add]; rfl
    | cons chunk chunks => rfl

end Ssz.DenseTree
