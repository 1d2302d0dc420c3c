-- SUMMARY: Chunks, the 32-byte leaves and nodes of a hash tree.
import Ssz.Hash.Sha256
import Ssz.Shape

/-!
# Chunks

A hash tree is built over chunks of 32 bytes. Bytes are packed into chunks with
zeros after the end, and an inner node is the hash of its two children.
-/

namespace Ssz

abbrev Chunk := ByteVector bytesPerChunk

/-- Cut bytes into chunks; the last one is filled up with zeros. -/
def packChunks (bytes : Bytes) : List Chunk :=
  (pieces bytesPerChunk (ceilDiv bytes.length bytesPerChunk) bytes).map (ByteVector.padded _)

/-- The node above two chunks. -/
def hashPair (left right : Chunk) : Chunk := Sha256.hash (left.toList ++ right.toList)

/-- Bind the root of a list's content to its length. -/
def mixInLength (root : Chunk) (length : Nat) : Chunk :=
  hashPair root (.padded _ (littleEndian 8 length))

/-- Bind the root of a union's content to its selector. -/
def mixInSelector (root : Chunk) (selector : UInt8) : Chunk := hashPair root (.padded _ [selector])

end Ssz
