-- SUMMARY: What the hasher makes of any chunks under any limit, and that it never leaves its table.
import Mathlib.Order.Bounds.Basic
import Ssz.Proofs.Merkle.Dense

/-!
# Sparse trees

The hasher looks the roots of zero subtrees up in a table, one at most for each
layer. It is run here once more with look-ups that may fail, and none of them
does: a limit is a number of 64 bits, so a tree never has more layers than the
table has entries, even where the next power of two no longer is such a number.

The root depends on the chunks and on the depth alone. So zero chunks may be
written out or left out, and one limit is as good as another that is rounded up
to the same power of two.
-/

namespace Ssz.SparseTree

open DenseTree

/-! ## Look-ups that may fail -/

/-- The layer with a partner for each node. A last one that has none is given the entry of the
    table for its level, if there is one. -/
def partnered? (level : Nat) (layer : List Chunk) : Option (List Chunk) :=
  if layer.length % 2 = 1 then zeroRoots[level]?.map fun filler => layer ++ [filler]
  else some layer

/-- The top of a tree from its layer at `level`, after `count` more layers. There is no result if
    a look-up misses the table, or if nothing is left at the top. -/
def climb? (level : Nat) : (count : Nat) → (layer : List Chunk) → Option Chunk
  | 0, layer => layer.head?
  | count + 1, layer => do climb? (level + 1) count (pairs (← partnered? level layer))

/-- The hasher with look-ups that may fail. -/
def merkleize? (chunks : List Chunk) (limit : Nat) : Option (Except EncodeError Chunk) :=
  if limit < chunks.length then some (.error (.tooManyElements "chunk list" limit chunks.length))
  else if limit = 0 then some (.ok (.zero _))
  else if chunks.isEmpty then zeroRoots[treeDepth limit]?.map .ok
  else (climb? 0 (treeDepth limit) chunks).map .ok

theorem length_zeroRootsFrom (root : Chunk) (count : Nat) :
    (zeroRootsFrom root count).length = count + 1 := by
  induction count generalizing root with
  | zero => rfl
  | succ count ih => rw [zeroRootsFrom, List.length_cons, ih]

theorem getElem?_zeroRoots {depth : Nat} (h : depth ≤ maxTreeDepth) :
    zeroRoots[depth]? = some (zeroRoot depth) := by
  have hlt : depth < zeroRoots.length := by
    rw [zeroRoots, length_zeroRootsFrom]
    exact Nat.lt_succ_of_le h
  rw [zeroRoot, List.getD_eq_getElem?_getD, List.getElem?_eq_getElem hlt, Option.getD_some]

theorem treeDepth_le (limit : Nat) : treeDepth limit ≤ maxTreeDepth := Nat.min_le_right _ _

/-- Giving the last node its partner and hashing in pairs is what the hasher does in one step. -/
theorem pairs_append_filler (filler : Chunk) (layer : List Chunk) :
    pairs (if layer.length % 2 = 1 then layer ++ [filler] else layer) = pairUp filler layer := by
  induction layer using pairUp.induct with
  | case1 left right layer ih =>
    have hparity : (left :: right :: layer).length % 2 = layer.length % 2 := by
      rw [List.length_cons, List.length_cons, Nat.add_assoc, Nat.add_mod_right]
    rw [hparity, pairUp, ← ih]
    split <;> rfl
  | case2 left => rfl
  | case3 => rfl

theorem partnered?_eq {level : Nat} (h : level ≤ maxTreeDepth) (layer : List Chunk) :
    partnered? level layer
      = some (if layer.length % 2 = 1 then layer ++ [zeroRoot level] else layer) := by
  rw [partnered?, getElem?_zeroRoots h]
  split <;> rfl

theorem climb?_eq {level count : Nat} {layer : List Chunk} (hlevel : level + count ≤ maxTreeDepth)
    (hlayer : layer ≠ []) : climb? level count layer = some (climb level count layer) := by
  induction count generalizing level layer with
  | zero =>
    obtain ⟨chunk, layer, rfl⟩ := List.exists_cons_of_ne_nil hlayer
    rfl
  | succ count ih =>
    have hnext : pairUp (zeroRoot level) layer ≠ [] := by
      have hpos := List.length_pos_iff.2 hlayer
      refine List.length_pos_iff.1 ?_
      rw [length_pairUp]
      omega
    rw [climb?, partnered?_eq (by omega), climb, ← ih (by omega) hnext, ← pairs_append_filler]
    rfl

/-- No look-up misses the table. -/
theorem merkleize?_eq (chunks : List Chunk) (limit : Nat) :
    merkleize? chunks limit = some (merkleize chunks limit) := by
  unfold merkleize? merkleize
  split
  · rfl
  · split
    · rfl
    · split
      · rw [getElem?_zeroRoots (treeDepth_le limit)]
        rfl
      · rename_i hchunks
        have hlevel : 0 + treeDepth limit ≤ maxTreeDepth := by
          rw [Nat.zero_add]
          exact treeDepth_le limit
        rw [climb?_eq hlevel fun hnil => hchunks (List.isEmpty_iff.2 hnil)]
        rfl

/-! ## Depth and zero subtrees -/

/-- The depth is the least that has room for the limit. -/
theorem isLeast_treeDepth {limit : Nat} (h : limit ≤ 2 ^ maxTreeDepth) :
    IsLeast {d | limit ≤ 2 ^ d} (treeDepth limit) := by
  rw [treeDepth_eq_clog h]
  exact ⟨Nat.le_pow_clog Nat.one_lt_two limit, fun _ hd => Nat.clog_le_of_le_pow hd⟩

/-- Each entry of the table is the root over zero chunks that are all written out. -/
theorem zeroRoot_eq_top {depth : Nat} (h : depth ≤ maxTreeDepth) :
    zeroRoot depth = top depth (List.replicate (2 ^ depth) (.zero _)) := by
  have hclimb := @climb_eq_top 0 depth [] (by rwa [Nat.zero_add]) (Nat.zero_le _)
  rw [climb_nil, Nat.zero_add, List.nil_append, zeroRoot_zero] at hclimb
  exact hclimb

/-! ## Filled leaves -/

/-- The chunks with zero chunks after them, `2 ^ depth` in all. -/
def filled (chunks : List Chunk) (depth : Nat) : List Chunk :=
  chunks ++ List.replicate (2 ^ depth - chunks.length) (.zero _)

theorem filled_append_zeros {chunks : List Chunk} {count depth : Nat}
    (h : chunks.length + count ≤ 2 ^ depth) :
    filled (chunks ++ List.replicate count (.zero _)) depth = filled chunks depth := by
  have hcount : count + (2 ^ depth - (chunks.length + count)) = 2 ^ depth - chunks.length := by
    omega
  rw [filled, filled, List.append_assoc, List.length_append, List.length_replicate,
    List.replicate_append_replicate, hcount]

/-- The root of the filled tree. A tree without room is no exception. -/
theorem merkleize_eq_top {chunks : List Chunk} {limit : Nat} (hchunks : chunks.length ≤ limit)
    (hlimit : limit ≤ 2 ^ maxTreeDepth) :
    merkleize chunks limit = .ok (top (treeDepth limit) (filled chunks (treeDepth limit))) := by
  rw [merkleize_eq_root hchunks hlimit, treeDepth_eq_clog hlimit, DenseTree.root]
  split
  · rename_i hzero
    subst hzero
    cases List.eq_nil_of_length_eq_zero (Nat.le_zero.1 hchunks)
    rw [Nat.clog_zero_right]
    rfl
  · rfl

theorem merkleize_append_zeros {chunks : List Chunk} {limit count : Nat}
    (hlimit : limit ≤ 2 ^ maxTreeDepth) (hcount : chunks.length + count ≤ limit) :
    merkleize (chunks ++ List.replicate count (.zero _)) limit = merkleize chunks limit := by
  have hlength : (chunks ++ List.replicate count (ByteVector.zero _)).length ≤ limit := by
    rwa [List.length_append, List.length_replicate]
  have hroom : limit ≤ 2 ^ treeDepth limit := (isLeast_treeDepth hlimit).1
  rw [merkleize_eq_top hlength hlimit, merkleize_eq_top (by omega) hlimit,
    filled_append_zeros (hcount.trans hroom)]

theorem merkleize_congr_limit {chunks : List Chunk} {limit other : Nat}
    (hlimit : limit ≤ 2 ^ maxTreeDepth) (hother : other ≤ 2 ^ maxTreeDepth)
    (hchunks : chunks.length ≤ limit) (hchunks' : chunks.length ≤ other)
    (hround : ∀ d, limit ≤ 2 ^ d ↔ other ≤ 2 ^ d) :
    merkleize chunks other = merkleize chunks limit := by
  have hleast := isLeast_treeDepth hother
  simp only [← hround] at hleast
  have hdepth : treeDepth other = treeDepth limit := hleast.unique (isLeast_treeDepth hlimit)
  rw [merkleize_eq_top hchunks' hother, merkleize_eq_top hchunks hlimit, hdepth]

/-! ## The law -/

/-- What the hasher does with chunks under a limit, told by the tree that is written out in full. -/
structure Reduces (chunks : List Chunk) (limit : Nat) : Prop where
  refused : limit < chunks.length ↔
    merkleize chunks limit = .error (.tooManyElements "chunk list" limit chunks.length)
  noRoom : chunks.length ≤ limit → limit = 0 → merkleize chunks limit = .ok (.zero _)
  root : chunks.length ≤ limit →
    merkleize chunks limit = .ok (top (treeDepth limit) (filled chunks (treeDepth limit)))
  depth : IsLeast {d | limit ≤ 2 ^ d} (treeDepth limit)
  depth_le : treeDepth limit ≤ maxTreeDepth
  inTable : merkleize? chunks limit = some (merkleize chunks limit)
  /-- Zero chunks may be written out. -/
  zeros : ∀ count, chunks.length + count ≤ limit →
    merkleize (chunks ++ List.replicate count (.zero _)) limit = merkleize chunks limit
  /-- The limit may be another with no power of two between the two. -/
  limits : ∀ other, other < 2 ^ 64 → chunks.length ≤ limit → chunks.length ≤ other →
    (∀ d, limit ≤ 2 ^ d ↔ other ≤ 2 ^ d) → merkleize chunks other = merkleize chunks limit

/-- The sparse tree is the full one, for every list of chunks and every limit of 64 bits, and every
    entry of its table is the root over as many zero chunks as it stands for. -/
theorem merkleize_reduces (chunks : List Chunk) {limit : Nat} (h : limit < 2 ^ 64) :
    Reduces chunks limit ∧
      ∀ depth ≤ maxTreeDepth,
        zeroRoots[depth]? = some (top depth (List.replicate (2 ^ depth) (.zero _))) := by
  have hlimit : limit ≤ 2 ^ maxTreeDepth := h.le
  constructor
  · constructor
    case refused =>
      constructor
      · intro hlarge
        rw [merkleize, if_pos hlarge]
      · intro herror
        by_contra hroom
        rw [merkleize_eq_top (Nat.not_lt.1 hroom) hlimit] at herror
        cases herror
    case noRoom =>
      intro hchunks hzero
      rw [merkleize, if_neg (Nat.not_lt.2 hchunks), if_pos hzero]
    case root => exact fun hchunks => merkleize_eq_top hchunks hlimit
    case depth => exact isLeast_treeDepth hlimit
    case depth_le => exact treeDepth_le limit
    case inTable => exact merkleize?_eq chunks limit
    case zeros => exact fun count => merkleize_append_zeros hlimit
    case limits => exact fun other hother => merkleize_congr_limit hlimit hother.le
  · intro depth hdepth
    rw [getElem?_zeroRoots hdepth, zeroRoot_eq_top hdepth]

/-- Above `2 ^ 63` the next power of two takes more than 64 bits. The tree has all 64 layers there,
    and one limit is like any other. -/
theorem merkleize_reduces_largest :
    let chunk : Chunk := .padded _ [7]
    2 ^ 63 + 1 < 2 ^ 64 ∧ merkleize [chunk] (2 ^ 63 + 1) = .ok (top 64 (filled [chunk] 64)) ∧
      merkleize [chunk] (2 ^ 64 - 1) = merkleize [chunk] (2 ^ 63 + 1) := by
  intro chunk
  have hsmall : 2 ^ 63 + 1 < 2 ^ 64 := by decide
  have hroom : [chunk].length ≤ 2 ^ 63 + 1 := Nat.le_add_left 1 (2 ^ 63)
  have h := (merkleize_reduces [chunk] hsmall).1
  have hround (d : Nat) : 2 ^ 63 + 1 ≤ 2 ^ d ↔ 2 ^ 64 - 1 ≤ 2 ^ d := by
    rcases Nat.lt_or_ge d 64 with hd | hd
    · have hpow : 2 ^ d ≤ 2 ^ 63 := Nat.pow_le_pow_right (by decide) (Nat.le_of_lt_succ hd)
      omega
    · have hpow : 2 ^ 64 ≤ 2 ^ d := Nat.pow_le_pow_right (by decide) hd
      omega
  exact ⟨hsmall, h.root hroom,
    h.limits (2 ^ 64 - 1) (by decide) hroom (hroom.trans (by decide)) hround⟩

end Ssz.SparseTree
