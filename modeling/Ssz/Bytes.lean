-- SUMMARY: Byte strings, byte strings of a fixed length, and little-endian numbers.

/-!
# Byte strings

Everything that goes over the wire or into the hash is a list of bytes.
Numbers are written least significant byte first; `ofLittleEndian` undoes
`littleEndian` on every number that fits the width.
-/

namespace Ssz

abbrev Bytes := List UInt8

/-! ## Little-endian numbers -/

/-- The `width` lowest base-256 digits of `n`, least significant first. -/
def littleEndian : (width n : Nat) → Bytes
  | 0, _ => []
  | width + 1, n => UInt8.ofNat (n % 256) :: littleEndian width (n / 256)

/-- The number whose base-256 digits are `bytes`, least significant first. -/
def ofLittleEndian : Bytes → Nat
  | [] => 0
  | b :: bytes => b.toNat + 256 * ofLittleEndian bytes

@[simp] theorem length_littleEndian (width n : Nat) : (littleEndian width n).length = width := by
  induction width generalizing n with
  | zero => rfl
  | succ width ih => simp [littleEndian, ih]

theorem ofLittleEndian_lt (bytes : Bytes) :
    ofLittleEndian bytes < Nat.pow 256 bytes.length := by
  induction bytes with
  | nil => simp [ofLittleEndian]
  | cons b bytes ih =>
    have hb : b.toNat < 256 := b.toNat_lt
    change b.toNat + 256 * ofLittleEndian bytes < Nat.pow 256 bytes.length * 256
    omega

theorem ofLittleEndian_littleEndian {width n : Nat} (h : n < Nat.pow 256 width) :
    ofLittleEndian (littleEndian width n) = n := by
  induction width generalizing n with
  | zero =>
    have hzero : n = 0 := Nat.lt_one_iff.1 h
    simp [littleEndian, ofLittleEndian, hzero]
  | succ width ih =>
    have hdiv : n / 256 < Nat.pow 256 width := by
      have hpow : n < Nat.pow 256 width * 256 := h
      omega
    simp only [littleEndian, ofLittleEndian, ih hdiv, UInt8.toNat_ofNat']
    omega

theorem littleEndian_ofLittleEndian (bytes : Bytes) :
    littleEndian bytes.length (ofLittleEndian bytes) = bytes := by
  induction bytes with
  | nil => rfl
  | cons b bytes ih =>
    have hb : b.toNat < 256 := b.toNat_lt
    have hmod : (b.toNat + 256 * ofLittleEndian bytes) % 256 = b.toNat := by omega
    have hdiv : (b.toNat + 256 * ofLittleEndian bytes) / 256 = ofLittleEndian bytes := by omega
    simp [ofLittleEndian, littleEndian, hmod, hdiv, ih]

/-! ## Byte strings of a fixed length -/

/-- A byte string of exactly `n` bytes. -/
structure ByteVector (n : Nat) where
  toList : Bytes
  length_toList : toList.length = n
  deriving DecidableEq

namespace ByteVector

variable {n : Nat}

/-- All zero bytes. -/
def zero (n : Nat) : ByteVector n := ⟨List.replicate n 0, by simp⟩

/-- The byte string itself, when it has the right length. -/
def ofList? (n : Nat) (bytes : Bytes) : Option (ByteVector n) :=
  if h : bytes.length = n then some ⟨bytes, h⟩ else none

instance : Inhabited (ByteVector n) := ⟨zero n⟩

@[ext] theorem ext {a b : ByteVector n} (h : a.toList = b.toList) : a = b := by
  cases a; cases b; simp_all

/-- The first `n` bytes, with zeros after the end. -/
def padded (n : Nat) (bytes : Bytes) : ByteVector n :=
  ⟨bytes.take n ++ List.replicate (n - bytes.length) 0, by simp; omega⟩

end ByteVector

/-- Cut `count` consecutive pieces of `size` bytes each off the front. -/
def pieces (size : Nat) : (count : Nat) → Bytes → List Bytes
  | 0, _ => []
  | count + 1, bytes => bytes.take size :: pieces size count (bytes.drop size)

@[simp] theorem length_pieces (size count : Nat) (bytes : Bytes) :
    (pieces size count bytes).length = count := by
  induction count generalizing bytes with
  | zero => rfl
  | succ count ih => simp [pieces, ih]

/-- How many groups of `size` are needed for `n`. -/
def ceilDiv (n size : Nat) : Nat := (n + size - 1) / size

end Ssz
