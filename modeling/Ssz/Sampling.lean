-- SUMMARY: What random generators of shapes, values and records can produce.
import Ssz.Catalogue.Altair
import Ssz.WellFormed

/-!
# Sampling

Property tests draw values at random. What matters here is which values can be
drawn: all values of the shape, except that lists have at most six elements. The
sets are given as lists, complete and without an order that matters.
-/

namespace Ssz.Sampling

/-- Most elements of a list that is drawn. -/
def smallCapacity : Nat := 6

/-! ## Values of a shape -/

/-- All lists of `count` elements from a set. -/
def tuples {α : Type} (set : List α) : (count : Nat) → List (List α)
  | 0 => [[]]
  | count + 1 => (tuples set count).flatMap fun rest => set.map (· :: rest)

/-- All lists of at most `max` elements from a set. -/
def tuplesUpTo {α : Type} (set : List α) (max : Nat) : List (List α) :=
  (List.range (max + 1)).flatMap (tuples set)

/-- All bytes. -/
def allBytes : List UInt8 := (List.range 256).map UInt8.ofNat

/-- All numbers of a width. -/
def allUints (width : UintWidth) : List Value :=
  (List.range width.bound).map fun n => .uint width (BitVec.ofNat width.bits n)

mutual

/-- Every value that can be drawn for a shape. -/
def values : Shape → List Value
  | .bool => [.bool false, .bool true]
  | .uint width => allUints width
  | .byteVector length => (tuples allBytes length).map .bytes
  | .byteList max => (tuplesUpTo allBytes max).map .bytes
  | .bitVector length => (tuples [false, true] length).map fun bits => .bits (Bits.ofList bits)
  | .bitList max => (tuplesUpTo [false, true] max).map fun bits => .bits (Bits.ofList bits)
  | .vector element length => (tuples (values element) length).map .list
  | .list element max => (tuplesUpTo (values element) (min max smallCapacity)).map .list
  | .container _ fields => (fieldValues fields).map .container
  | .union alternatives => alternativeValues 0 alternatives
termination_by structural shape => shape

def fieldValues : List (Field Shape) → List (List Value)
  | [] => [[]]
  | ⟨_, _, shape⟩ :: fields =>
    (values shape).flatMap fun v => (fieldValues fields).map (v :: ·)
termination_by structural fields => fields

/-- Values of the alternatives of a union, of which the first has this index. A selector is one
    byte. -/
def alternativeValues (index : Nat) : List (Option Shape) → List Value
  | [] => []
  | none :: alternatives =>
    .union (UInt8.ofNat index) none :: alternativeValues (index + 1) alternatives
  | some shape :: alternatives =>
    (values shape).map (fun v => .union (UInt8.ofNat index) (some v))
      ++ alternativeValues (index + 1) alternatives
termination_by structural alternatives => alternatives

end

/-! ## Shapes -/

/-- Deepest nesting of a shape that is drawn; a leaf has depth one. -/
def maxShapeDepth : Nat := 4

/-- Names of the fields of a container that is drawn. -/
def fieldNames : List String := ["f0", "f1", "f2", "f3"]

/-- A container of these shapes. -/
def containerOf (shapes : List Shape) : Shape :=
  .container "Generated" (List.zipWith (fun name shape => ⟨name, name, shape⟩) fieldNames shapes)

/-- Capacity of a list that is drawn to be mostly empty. -/
def largeCapacity : Nat := 0x100000

def uintWidths : List UintWidth := [.u8, .u16, .u32, .u64, .u128, .u256]

/-- Numbers from `first` to `last`. -/
def span (first last : Nat) : List Nat := (List.range (last + 1 - first)).map (first + ·)

def byteVectorLengths : List Nat := span 1 48
def byteListCapacities : List Nat := span 0 64
def bitVectorLengths : List Nat := span 1 40
def bitListCapacities : List Nat := span 0 40
def vectorLengths : List Nat := span 1 4
def listCapacities : List Nat := span 0 smallCapacity ++ [largeCapacity]
def fieldCounts : List Nat := span 1 fieldNames.length
/-- Numbers of alternatives that are not empty. -/
def alternativeCounts : List Nat := span 1 3

/-- The shapes that can be drawn, down to a depth. -/
inductive Drawn : (depth : Nat) → Shape → Prop where
  | bool {depth} : Drawn (depth + 1) .bool
  | uint {depth width} : width ∈ uintWidths → Drawn (depth + 1) (.uint width)
  | byteVector {depth n} : n ∈ byteVectorLengths → Drawn (depth + 1) (.byteVector n)
  | byteList {depth n} : n ∈ byteListCapacities → Drawn (depth + 1) (.byteList n)
  | bitVector {depth n} : n ∈ bitVectorLengths → Drawn (depth + 1) (.bitVector n)
  | bitList {depth n} : n ∈ bitListCapacities → Drawn (depth + 1) (.bitList n)
  | vector {depth element n} : Drawn depth element → n ∈ vectorLengths →
      Drawn (depth + 1) (.vector element n)
  | list {depth element n} : Drawn depth element → n ∈ listCapacities →
      Drawn (depth + 1) (.list element n)
  | container {depth} {shapes : List Shape} : (∀ s ∈ shapes, Drawn depth s) →
      shapes.length ∈ fieldCounts → Drawn (depth + 1) (containerOf shapes)
  | union {depth} {shapes : List Shape} : (∀ s ∈ shapes, Drawn depth s) →
      shapes.length ∈ alternativeCounts → Drawn (depth + 1) (.union (none :: shapes.map some))

/-! ## Records -/

/-- Attestations of at most `max` bits. -/
def attestationUpTo (max : Nat) : Ty := .record "Attestation" [
  ⟨"aggregation_bits", "aggregation bits",
    .bitList (min max Preset.maxValidatorsPerCommittee)⟩,
  ⟨"data", "data", Phase0.attestationData⟩,
  ⟨"signature", "signature", Ty.signature⟩]

/-- Indexed attestations of at most `max` indices. -/
def indexedAttestationUpTo (max : Nat) : Ty := .record "IndexedAttestation" [
  ⟨"attesting_indices", "attesting indices",
    .list Ty.uint64 (min max Preset.maxValidatorsPerCommittee)⟩,
  ⟨"data", "data", Phase0.attestationData⟩,
  ⟨"signature", "signature", Ty.signature⟩]

/-- The types whose values the generator of a name draws. The two that take a maximum draw no more
    than that. -/
def generator? (name : String) (max : Nat) : Option Ty :=
  match name with
  | "root" => some Ty.root
  | "pubkey" => some Ty.publicKey
  | "signature" => some Ty.signature
  | "checkpoint" => some Phase0.checkpoint
  | "deposit_message" => some Phase0.depositMessage
  | "attestation_data" => some Phase0.attestationData
  | "attestation" => some (attestationUpTo max)
  | "indexed_attestation" => some (indexedAttestationUpTo max)
  | "signed_beacon_block_header" => some Phase0.signedBeaconBlockHeader
  | "signed_voluntary_exit" => some Phase0.signedVoluntaryExit
  | "sync_aggregate" => some Altair.syncAggregate
  | _ => none

end Ssz.Sampling
