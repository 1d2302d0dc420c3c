-- SUMMARY: Packed bit sequences with an exact length, and their wire form with a sentinel bit.
import Ssz.Bytes
import Ssz.Error

/-!
# Bit sequences

Bits are packed little-endian within each byte: bit `i` lives in byte `i / 8` at
position `i % 8`. The unused high bits of the last byte are always clear, so a
sequence of bits has one packed form. The sentinel bit of a bitlist exists only
on the wire; `Bits.toWire` adds it and `Bits.ofWire` strips it.
-/

namespace Ssz

/-! ## Single bytes -/

/-- Bit `k` of a byte, counted from the least significant. -/
def testBit (b : UInt8) (k : Nat) : Bool := b.toBitVec.getLsbD k

/-- The byte `b` with bit `k` set to `value`. -/
def withBit (b : UInt8) (k : Nat) (value : Bool) : UInt8 :=
  if value then ⟨b.toBitVec ||| BitVec.twoPow 8 k⟩ else ⟨b.toBitVec &&& ~~~BitVec.twoPow 8 k⟩

/-- The byte whose bits are `bits`, least significant first. -/
def byteOfBits (bits : List Bool) : UInt8 := ⟨(BitVec.ofBoolListLE bits).setWidth 8⟩

/-- The number of set bits of a byte. -/
def popcount (b : UInt8) : Nat := (List.range 8).countP (testBit b)

theorem testBit_withBit {b : UInt8} {k j : Nat} {value : Bool} (hk : k < 8) :
    testBit (withBit b k value) j = if j = k then value else testBit b j := by
  by_cases hj : j < 8
  · cases value <;> by_cases h : j = k <;> simp_all [testBit, withBit]
  · have hne : j ≠ k := by omega
    have h1 : testBit (withBit b k value) j = false := BitVec.getLsbD_of_ge _ _ (by omega)
    have h2 : testBit b j = false := BitVec.getLsbD_of_ge _ _ (by omega)
    simp [h1, h2, hne]

theorem testBit_byteOfBits (bits : List Bool) (k : Nat) :
    testBit (byteOfBits bits) k = (decide (k < 8) && bits.getD k false) := by
  simp [testBit, byteOfBits, BitVec.getLsbD_setWidth, BitVec.getLsbD_ofBoolListLE]

theorem testBit_zero (k : Nat) : testBit 0 k = false := by simp [testBit]

theorem testBit_log2 {b : UInt8} {k : Nat} (h : b.toNat.log2 < k) : testBit b k = false := by
  have hlt : b.toNat < 2 ^ k :=
    Nat.lt_of_lt_of_le Nat.lt_log2_self (Nat.pow_le_pow_right (by decide) h)
  rw [testBit, ← BitVec.testBit_toNat]
  exact Nat.testBit_lt_two_pow hlt

theorem log2_lt_eight {b : UInt8} : b.toNat.log2 < 8 := by
  by_cases h : b.toNat = 0
  · simp [h, Nat.log2_zero]
  · exact (Nat.log2_lt h).2 b.toNat_lt

/-! ## Bits of a byte string -/

/-- Bit `i` of packed bytes; past the end it reads as clear. -/
def bitAt (bytes : Bytes) (i : Nat) : Bool := testBit (bytes.getD (i / 8) 0) (i % 8)

theorem bitAt_of_ge {bytes : Bytes} {i : Nat} (h : 8 * bytes.length ≤ i) :
    bitAt bytes i = false := by
  have hlen : bytes.length ≤ i / 8 := by omega
  simp [bitAt, List.getD_eq_getElem?_getD, List.getElem?_eq_none hlen, testBit_zero]

theorem bitAt_append_left {a b : Bytes} {i : Nat} (h : i < 8 * a.length) :
    bitAt (a ++ b) i = bitAt a i := by
  have hlt : i / 8 < a.length := by omega
  simp [bitAt, List.getD_eq_getElem?_getD, List.getElem?_append_left hlt]

theorem bitAt_append_right {a b : Bytes} {i : Nat} (h : 8 * a.length ≤ i) :
    bitAt (a ++ b) i = bitAt b (i - 8 * a.length) := by
  have hle : a.length ≤ i / 8 := by omega
  have hdiv : (i - 8 * a.length) / 8 = i / 8 - a.length := by omega
  have hmod : (i - 8 * a.length) % 8 = i % 8 := by omega
  simp [bitAt, List.getD_eq_getElem?_getD, List.getElem?_append_right hle, hdiv, hmod]

theorem bitAt_singleton {b : UInt8} {i : Nat} (h : i < 8) : bitAt [b] i = testBit b i := by
  have hdiv : i / 8 = 0 := by omega
  have hmod : i % 8 = i := by omega
  simp [bitAt, hdiv, hmod]

theorem bitAt_modify {bytes : Bytes} {i j : Nat} {value : Bool} (h : i / 8 < bytes.length) :
    bitAt (bytes.modify (i / 8) (withBit · (i % 8) value)) j
      = if j = i then value else bitAt bytes j := by
  simp only [bitAt, List.getD_eq_getElem?_getD, List.getElem?_modify]
  by_cases hdiv : i / 8 = j / 8
  · have hget : bytes[j / 8]? = some bytes[i / 8] := by
      rw [← hdiv]; exact List.getElem?_eq_getElem h
    have hiff : j % 8 = i % 8 ↔ j = i := by omega
    simp [hget, hdiv, testBit_withBit (Nat.mod_lt i (by decide)), hiff]
  · have hne : j ≠ i := by intro heq; exact hdiv (by rw [heq])
    simp [hdiv, hne]

/-! ## Bit sequences -/

/-- A packed run of bits with an exact logical length. -/
structure Bits where
  length : Nat
  bytes : Bytes
  length_bytes : bytes.length = ceilDiv length 8
  clear_beyond : ∀ i, length ≤ i → bitAt bytes i = false

namespace Bits

theorem ext {a b : Bits} (hlength : a.length = b.length) (hbytes : a.bytes = b.bytes) : a = b := by
  cases a; cases b; simp_all

instance : DecidableEq Bits := fun a b =>
  if h : a.length = b.length ∧ a.bytes = b.bytes then .isTrue (ext h.1 h.2)
  else .isFalse fun heq => h (by simp [heq])

/-- All-clear bits of the given length. -/
def zeros (length : Nat) : Bits where
  length
  bytes := List.replicate (ceilDiv length 8) 0
  length_bytes := by simp
  clear_beyond i _ := by
    rw [bitAt, List.getD_eq_getElem?_getD, List.getElem?_replicate]
    split <;> simp [testBit_zero]

instance : Inhabited Bits := ⟨zeros 0⟩

/-- Pack `count` bytes from a list of bits, with clear bits after its end. -/
def pack : (count : Nat) → List Bool → Bytes
  | 0, _ => []
  | count + 1, bits => byteOfBits (bits.take 8) :: pack count (bits.drop 8)

theorem length_pack (count : Nat) (bits : List Bool) : (pack count bits).length = count := by
  induction count generalizing bits with
  | zero => rfl
  | succ count ih => simp [pack, ih]

theorem bitAt_pack {count : Nat} {bits : List Bool} {i : Nat} (h : i < 8 * count) :
    bitAt (pack count bits) i = bits.getD i false := by
  induction count generalizing bits i with
  | zero => omega
  | succ count ih =>
    by_cases hi : i < 8
    · rw [pack, show byteOfBits (bits.take 8) :: pack count (bits.drop 8)
          = [byteOfBits (bits.take 8)] ++ pack count (bits.drop 8) from rfl,
        bitAt_append_left (by simpa using hi), bitAt_singleton hi, testBit_byteOfBits]
      simp [hi, List.getD_eq_getElem?_getD]
    · rw [pack, show byteOfBits (bits.take 8) :: pack count (bits.drop 8)
          = [byteOfBits (bits.take 8)] ++ pack count (bits.drop 8) from rfl,
        bitAt_append_right (by simp; omega), ih (by simp; omega)]
      simp only [List.getD_eq_getElem?_getD, List.getElem?_drop, List.length_singleton]
      rw [show 8 + (i - 8 * 1) = i by omega]

/-- One bit per element. -/
def ofList (bits : List Bool) : Bits where
  length := bits.length
  bytes := pack (ceilDiv bits.length 8) bits
  length_bytes := length_pack _ _
  clear_beyond i h := by
    by_cases hi : i < 8 * ceilDiv bits.length 8
    · rw [bitAt_pack hi, List.getD_eq_getElem?_getD, List.getElem?_eq_none h, Option.getD_none]
    · exact bitAt_of_ge (by rw [length_pack]; omega)

/-- Bit `i`, or nothing past the end. -/
def get? (bits : Bits) (i : Nat) : Option Bool :=
  if i < bits.length then some (bitAt bits.bytes i) else none

/-- The bits in order. -/
def toList (bits : Bits) : List Bool := (List.range bits.length).map (bitAt bits.bytes)

/-- The number of set bits. -/
def countOnes (bits : Bits) : Nat := bits.bytes.foldr (fun b count => popcount b + count) 0

/-- Set bit `i`, saying whether it is in range; out of range nothing changes. -/
def set (bits : Bits) (i : Nat) (value : Bool) : Bool × Bits :=
  if h : i < bits.length then
    (true,
      { length := bits.length
        bytes := bits.bytes.modify (i / 8) (withBit · (i % 8) value)
        length_bytes := by simp [bits.length_bytes]
        clear_beyond := fun j hj => by
          have hlt : i / 8 < bits.bytes.length := by
            rw [bits.length_bytes]; unfold ceilDiv; omega
          have hne : j ≠ i := by omega
          rw [bitAt_modify hlt, if_neg hne]
          exact bits.clear_beyond j hj })
  else (false, bits)

theorem length_set (bits : Bits) (i : Nat) (value : Bool) :
    (bits.set i value).2.length = bits.length := by
  unfold set
  split <;> rfl

/-! ## Packed and wire forms -/

/-- The last byte of packed bits of this length leaves its unused bits clear. -/
def unusedClear (bytes : Bytes) (length : Nat) : Bool :=
  length % 8 = 0 || (bytes.getLastD 0).toNat < Nat.pow 2 (length % 8)

theorem clear_of_unusedClear {bytes : Bytes} {length : Nat}
    (hlength : bytes.length = ceilDiv length 8) (hclear : unusedClear bytes length = true)
    (i : Nat) (hi : length ≤ i) : bitAt bytes i = false := by
  by_cases hend : 8 * bytes.length ≤ i
  · exact bitAt_of_ge hend
  · have hpartial : length % 8 ≠ 0 := by unfold ceilDiv at hlength; omega
    have hlast : i / 8 = bytes.length - 1 := by unfold ceilDiv at hlength; omega
    have hbit : length % 8 ≤ i % 8 := by unfold ceilDiv at hlength; omega
    simp only [unusedClear, hpartial, decide_false, Bool.false_or, decide_eq_true_eq] at hclear
    rw [bitAt, hlast, testBit, ← BitVec.testBit_toNat]
    refine Nat.testBit_lt_two_pow (Nat.lt_of_lt_of_le ?_ (Nat.pow_le_pow_right (by decide) hbit))
    rwa [List.getLastD_eq_getLast?, List.getLast?_eq_getElem?, ← List.getD_eq_getElem?_getD]
      at hclear

/-- Adopt packed bytes holding exactly `length` bits. -/
def ofPacked (bytes : Bytes) (length : Nat) : Except Malformed Bits :=
  if hlength : bytes.length = ceilDiv length 8 then
    if hclear : unusedClear bytes length = true then
      .ok ⟨length, bytes, hlength, clear_of_unusedClear hlength hclear⟩
    else .error .unusedBitsSet
  else .error (.bitLength (ceilDiv length 8) bytes.length)

/-- The wire form of a bitlist: packed bits followed by one set bit that marks the length. -/
def toWire (bits : Bits) : Bytes :=
  if bits.length % 8 = 0 then bits.bytes ++ [1]
  else bits.bytes.modify (bits.length / 8) (withBit · (bits.length % 8) true)

/-- Packed bytes before a sentinel at bit `k` of the last byte: that bit is cleared, and a byte
    that held nothing else is dropped. -/
def stripSentinel (front : Bytes) (last : UInt8) (k : Nat) : Bytes :=
  if k = 0 then front else front ++ [withBit last k false]

/-- Parse the wire form of a bitlist of at most `max` bits. -/
def ofWire (bytes : Bytes) (max : Nat) : Except Malformed Bits :=
  let last := bytes.getLastD 0
  let front := bytes.dropLast
  let sentinel := last.toNat.log2
  if last = 0 then .error .missingSentinel
  else if max < 8 * front.length + sentinel then
    .error (.tooManyElements max (8 * front.length + sentinel))
  else .ok
    { length := 8 * front.length + sentinel
      bytes := stripSentinel front last sentinel
      length_bytes := by
        have hlt : sentinel < 8 := log2_lt_eight
        unfold stripSentinel ceilDiv
        split <;> simp <;> omega
      clear_beyond := fun i hi => by
        have hlt : sentinel < 8 := log2_lt_eight
        unfold stripSentinel
        split
        · exact bitAt_of_ge (by omega)
        · by_cases hend : 8 * (front.length + 1) ≤ i
          · exact bitAt_of_ge (by simpa using hend)
          · rw [bitAt_append_right (by omega), bitAt_singleton (by omega), testBit_withBit hlt]
            split
            · rfl
            · exact testBit_log2 (by omega) }

end Bits

end Ssz
