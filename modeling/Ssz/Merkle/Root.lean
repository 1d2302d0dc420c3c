-- SUMMARY: The hash tree root of a value.
import Ssz.Merkle.Tree
import Ssz.WellFormed

/-!
# Hash tree roots

Every value is turned into the leaves of a tree. Scalars and packed contents are
cut into chunks; a record, or a sequence of anything but scalars, has one leaf
per part, the root of that part. The size of the tree depends on the shape
alone, so whatever may vary in length has its length mixed in at the end.
-/

namespace Ssz

/-- Counts of bytes are 64-bit numbers; a product that does not fit stays at the largest. -/
def maxCount : Nat := 0xFFFFFFFFFFFFFFFF

/-- Bits in a chunk. -/
def bitsPerChunk : Nat := 8 * bytesPerChunk

/-- Chunks needed for `count` items of `size` bytes each. -/
def chunkCount (count size : Nat) : Nat := ceilDiv (min (count * size) maxCount) bytesPerChunk

/-- Bytes of a scalar. -/
def scalarBytes : Value → Except EncodeError Bytes
  | .bool b => .ok [if b then 1 else 0]
  | .uint width n => .ok (littleEndian width.bytes n.toNat)
  | v => .error (.shapeMismatch ⟨"basic scalar", v.kind⟩)

/-- Root over scalars of `size` bytes each, in a tree with room for `capacity` of them. -/
def packedRoot (items : List Value) (size capacity : Nat) : Except EncodeError Chunk := do
  let bodies ← items.mapM scalarBytes
  merkleize (packChunks bodies.flatten) (chunkCount capacity size)

namespace Shape

mutual

/-- The root of a well-formed value. -/
def root : Shape → Value → Except EncodeError Chunk
  | .bool, v | .uint _, v => do return .padded _ (← scalarBytes v)
  | .byteVector length, .bytes contents => merkleize (packChunks contents) (chunkCount length 1)
  | .byteList max, .bytes contents => do
    return mixInLength (← merkleize (packChunks contents) (chunkCount max 1)) contents.length
  | .bitVector length, .bits contents =>
    merkleize (packChunks contents.bytes) (ceilDiv length bitsPerChunk)
  | .bitList max, .bits contents => do
    return mixInLength (← merkleize (packChunks contents.bytes) (ceilDiv max bitsPerChunk))
      contents.length
  | .vector element length, .list items =>
    if element.isBasic then packedRoot items (element.fixedSize?.getD bytesPerChunk) length
    else do merkleize (← items.mapM fun item => element.root item) length
  | .list element max, .list items => do
    let content ←
      if element.isBasic then packedRoot items (element.fixedSize?.getD bytesPerChunk) max
      else do merkleize (← items.mapM fun item => element.root item) max
    return mixInLength content items.length
  | .container _ fields, .container values => do
    let roots ← fieldRoots fields values
    merkleize roots roots.length
  | .union alternatives, .union selector inner => do
    return mixInSelector (← chosenRoot alternatives selector.toNat inner) selector
  | shape, v => .error (kindMismatch shape v)
termination_by structural shape => shape

def fieldRoots : List (Field Shape) → List Value → Except EncodeError (List Chunk)
  | ⟨_, _, shape⟩ :: fields, v :: values => do
    let r ← shape.root v
    return r :: (← fieldRoots fields values)
  | _, _ => .ok []
termination_by structural fields => fields

/-- The root of a union's payload, of the shape at `index`. The empty alternative has the zero
    chunk. -/
def chosenRoot :
    (alternatives : List (Option Shape)) → (index : Nat) → Option Value → Except EncodeError Chunk
  | some shape :: _, 0, some inner => shape.root inner
  | _ :: alternatives, index + 1, inner => chosenRoot alternatives index inner
  | _, _, _ => .ok (.zero _)
termination_by structural alternatives => alternatives

end

end Shape

/-- The hash tree root of a value. A value that is not well-formed is refused. -/
def hashTreeRoot (shape : Shape) (v : Value) : Except EncodeError Chunk := do
  shape.check v
  shape.root v

end Ssz
