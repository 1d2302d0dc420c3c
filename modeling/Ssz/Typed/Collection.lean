-- SUMMARY: Bounded collections whose capacity is part of their type.
import Ssz.Bits
import Ssz.Error

/-!
# Bounded collections

A collection of capacity `n` is a list together with a proof of its length.
Building one checks the length, and an operation that would break it fails and
leaves the collection as it was.
-/

namespace Ssz

/-- Check an exact length. -/
def checkExact (expected actual : Nat) : Except CapacityError (PLift (actual = expected)) :=
  if h : actual = expected then .ok ⟨h⟩ else .error (.exact expected actual)

/-- Check a length against a maximum. -/
def checkCapacity (max actual : Nat) : Except CapacityError (PLift (actual ≤ max)) :=
  if h : actual ≤ max then .ok ⟨h⟩ else .error (.exceeded max actual)

/-! ## Bytes -/

/-- At most `n` bytes. -/
structure ByteList (n : Nat) where
  toList : Bytes
  length_le : toList.length ≤ n
  deriving DecidableEq

namespace ByteList

variable {n : Nat}

def empty : ByteList n := ⟨[], Nat.zero_le n⟩

def ofList (bytes : Bytes) : Except CapacityError (ByteList n) :=
  match checkCapacity n bytes.length with
  | .ok h => .ok ⟨bytes, h.down⟩
  | .error e => .error e

end ByteList

/-! ## Bits -/

/-- Exactly `n` bits. -/
structure BitVector (n : Nat) where
  bits : Bits
  length_eq : bits.length = n
  deriving DecidableEq

namespace BitVector

variable {n : Nat}

/-- All bits clear. -/
def zeros (n : Nat) : BitVector n := ⟨Bits.zeros n, rfl⟩

def ofBits (bits : Bits) : Except CapacityError (BitVector n) :=
  match checkExact n bits.length with
  | .ok h => .ok ⟨bits, h.down⟩
  | .error e => .error e

def get? (v : BitVector n) (i : Nat) : Option Bool := v.bits.get? i

/-- Set bit `i`, saying whether it is in range. -/
def set (v : BitVector n) (i : Nat) (value : Bool) : Bool × BitVector n :=
  ((v.bits.set i value).1, ⟨(v.bits.set i value).2, by rw [Bits.length_set, v.length_eq]⟩)

end BitVector

/-- At most `n` bits. -/
structure BitList (n : Nat) where
  bits : Bits
  length_le : bits.length ≤ n
  deriving DecidableEq

namespace BitList

variable {n : Nat}

def empty : BitList n := ⟨Bits.zeros 0, Nat.zero_le n⟩

def ofBits (bits : Bits) : Except CapacityError (BitList n) :=
  match checkCapacity n bits.length with
  | .ok h => .ok ⟨bits, h.down⟩
  | .error e => .error e

/-- All-clear bits of the given length. -/
def withLength (length : Nat) : Except CapacityError (BitList n) := ofBits (Bits.zeros length)

def length (l : BitList n) : Nat := l.bits.length

def isEmpty (l : BitList n) : Bool := l.length == 0

def get? (l : BitList n) (i : Nat) : Option Bool := l.bits.get? i

/-- Set bit `i`, saying whether it is in range. -/
def set (l : BitList n) (i : Nat) (value : Bool) : Bool × BitList n :=
  ((l.bits.set i value).1, ⟨(l.bits.set i value).2, by rw [Bits.length_set]; exact l.length_le⟩)

end BitList

/-! ## Elements -/

/-- Exactly `n` elements. -/
structure FixedList (α : Type) (n : Nat) where
  toList : List α
  length_eq : toList.length = n

namespace FixedList

variable {α : Type} {n : Nat}

def replicate (n : Nat) (a : α) : FixedList α n := ⟨List.replicate n a, by simp⟩

def ofList (items : List α) : Except CapacityError (FixedList α n) :=
  match checkExact n items.length with
  | .ok h => .ok ⟨items, h.down⟩
  | .error e => .error e

end FixedList

/-- At most `n` elements. -/
structure BoundedList (α : Type) (n : Nat) where
  toList : List α
  length_le : toList.length ≤ n

namespace BoundedList

variable {α : Type} {n : Nat}

def empty : BoundedList α n := ⟨[], Nat.zero_le n⟩

def ofList (items : List α) : Except CapacityError (BoundedList α n) :=
  match checkCapacity n items.length with
  | .ok h => .ok ⟨items, h.down⟩
  | .error e => .error e

/-- Append an element if there is room. -/
def push (l : BoundedList α n) (a : α) : Except CapacityError (BoundedList α n) :=
  if h : l.toList.length < n then .ok ⟨l.toList ++ [a], by rw [List.length_append]; exact h⟩
  else .error (.exceeded n (l.toList.length + 1))

end BoundedList

end Ssz
