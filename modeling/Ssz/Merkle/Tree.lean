-- SUMMARY: The root of a binary hash tree whose leaves after the given chunks are zero.
import Ssz.Error
import Ssz.Merkle.Chunk

/-!
# Hash trees

A tree has room for a number of leaves, its limit, rounded up to a power of two.
Only the given chunks are stored; subtrees that hold zero chunks alone come from
a table of their roots. So the work depends on the chunks and on the depth, and
not on the limit.
-/

namespace Ssz

/-- The deepest tree whose zero subtrees the table covers. -/
def maxTreeDepth : Nat := 64

/-- The least `d` with `n ≤ 2 ^ d`. -/
def ceilLog2 (n : Nat) : Nat := if n ≤ 1 then 0 else (n - 1).log2 + 1

/-- Depth of the tree with room for `limit` leaves, of which there are fewer than `2 ^ 64`. -/
def treeDepth (limit : Nat) : Nat := min (ceilLog2 limit) maxTreeDepth

/-- Roots of the `count` perfect trees of zero chunks that follow the one with this root. -/
def zeroRootsFrom (root : Chunk) : (count : Nat) → List Chunk
  | 0 => [root]
  | count + 1 => root :: zeroRootsFrom (hashPair root root) count

/-- Roots of the perfect trees of zero chunks, by depth. -/
def zeroRoots : List Chunk := zeroRootsFrom (.zero _) maxTreeDepth

/-- Root of the perfect tree of `2 ^ depth` zero chunks. -/
def zeroRoot (depth : Nat) : Chunk := zeroRoots.getD depth (.zero _)

/-- The layer above; a last node without a partner is paired with `filler`. -/
def pairUp (filler : Chunk) : List Chunk → List Chunk
  | left :: right :: layer => hashPair left right :: pairUp filler layer
  | [left] => [hashPair left filler]
  | [] => []

/-- The top of a tree from its layer at `level`, after `count` more layers. -/
def climb (level : Nat) : (count : Nat) → (layer : List Chunk) → Chunk
  | 0, layer => layer.headD (zeroRoot level)
  | count + 1, layer => climb (level + 1) count (pairUp (zeroRoot level) layer)

/-- The root of the tree with room for `limit` leaves that starts with these chunks. -/
def merkleize (chunks : List Chunk) (limit : Nat) : Except EncodeError Chunk :=
  if limit < chunks.length then .error (.tooManyElements "chunk list" limit chunks.length)
  else if limit = 0 then .ok (.zero _)
  else if chunks.isEmpty then .ok (zeroRoot (treeDepth limit))
  else .ok (climb 0 (treeDepth limit) chunks)

end Ssz
