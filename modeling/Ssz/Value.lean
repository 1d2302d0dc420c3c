-- SUMMARY: Value trees, equality of values, and the accessors that take a value apart.
import Ssz.Bits
import Ssz.Shape

/-!
# Values

A `Value` follows the tree of its shape: containers own their field values and
sequences own their elements. Numbers carry their width, so that a value can be
compared with a shape without looking at the number.
-/

namespace Ssz

/-- An instance of a protocol type. -/
inductive Value where
  | bool (b : Bool)
  | uint (width : UintWidth) (n : BitVec width.bits)
  /-- Contents of a byte vector or byte list. -/
  | bytes (contents : Bytes)
  /-- Bits of a bitvector or bitlist, never with the sentinel. -/
  | bits (contents : Bits)
  /-- Elements of a vector or list. -/
  | list (items : List Value)
  /-- Field values in declared order. -/
  | container (fields : List Value)
  /-- A selector and, unless the empty alternative is chosen, its value. -/
  | union (selector : UInt8) (inner : Option Value)

namespace Value

instance : Inhabited Value := ⟨.bool false⟩

/-- What kind of value this is, for messages. -/
def kind : Value → String
  | .bool _ => "bool"
  | .uint width _ => width.name
  | .bytes _ => "bytes"
  | .bits _ => "bits"
  | .list _ => "list"
  | .container _ => "container"
  | .union .. => "union"

/-! ## Equality -/

mutual

/-- Structural equality, as a test. -/
def same : Value → Value → Bool
  | .bool a, .bool b => a == b
  | .uint w m, .uint w' n => w == w' && m.toNat == n.toNat
  | .bytes a, .bytes b => a == b
  | .bits a, .bits b => a == b
  | .list a, .list b => sameAll a b
  | .container a, .container b => sameAll a b
  | .union s a, .union s' b => s == s' && sameInner a b
  | _, _ => false
termination_by structural v => v

def sameAll : List Value → List Value → Bool
  | [], [] => true
  | a :: as, b :: bs => same a b && sameAll as bs
  | _, _ => false
termination_by structural vs => vs

def sameInner : Option Value → Option Value → Bool
  | none, none => true
  | some a, some b => same a b
  | _, _ => false
termination_by structural v => v

end

mutual

theorem same_iff : (a b : Value) → (same a b = true ↔ a = b)
  | .bool a, b => by cases b <;> simp [same]
  | .uint w m, b => by
    cases b <;> simp [same]
    rintro rfl
    rw [heq_eq_eq]
    exact BitVec.toNat_inj
  | .bytes a, b => by cases b <;> simp [same]
  | .bits a, b => by cases b <;> simp [same]
  | .list a, b => by cases b <;> simp [same, sameAll_iff a]
  | .container a, b => by cases b <;> simp [same, sameAll_iff a]
  | .union s a, b => by cases b <;> simp [same, sameInner_iff a]

theorem sameAll_iff : (as bs : List Value) → (sameAll as bs = true ↔ as = bs)
  | [], bs => by cases bs <;> simp [sameAll]
  | a :: as, bs => by cases bs <;> simp [sameAll, same_iff a, sameAll_iff as]

theorem sameInner_iff : (a b : Option Value) → (sameInner a b = true ↔ a = b)
  | none, b => by cases b <;> simp [sameInner]
  | some a, b => by cases b <;> simp [sameInner, same_iff a]

end

instance : DecidableEq Value := fun a b => decidable_of_iff _ (same_iff a b)

/-! ## Accessors -/

private def mismatch (v : Value) (expected : String) : ShapeMismatch := ⟨expected, v.kind⟩

def asBool : Value → Except ShapeMismatch Bool
  | .bool b => .ok b
  | v => .error (v.mismatch "bool")

def asUint (width : UintWidth) : Value → Except ShapeMismatch (BitVec width.bits)
  | .uint w n =>
    if h : w = width then .ok (h ▸ n) else .error ((Value.uint w n).mismatch width.name)
  | v => .error (v.mismatch width.name)

def asBytes : Value → Except ShapeMismatch Bytes
  | .bytes contents => .ok contents
  | v => .error (v.mismatch "bytes")

def asBits : Value → Except ShapeMismatch Bits
  | .bits contents => .ok contents
  | v => .error (v.mismatch "bits")

def asList : Value → Except ShapeMismatch (List Value)
  | .list items => .ok items
  | v => .error (v.mismatch "list")

/-- The fields of a container that has exactly `count` of them. -/
def asContainer (count : Nat) : Value → Except ShapeMismatch (List Value)
  | .container fields =>
    if fields.length = count then .ok fields
    else .error ⟨s!"container of {count} fields",
      if fields.length < count then "container with missing fields"
      else "container with extra fields"⟩
  | v => .error (v.mismatch "container")

/-- Split off the value of the next field, called `name`. -/
def nextField (name : String) : List Value → Except ShapeMismatch (Value × List Value)
  | v :: rest => .ok (v, rest)
  | [] => .error ⟨s!"field {name}", "end of container"⟩

end Value

end Ssz
