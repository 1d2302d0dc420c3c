-- SUMMARY: The readers of shapes fail for a fault of their input only.
import Ssz.Proofs.Text.Accepts
import Ssz.Proofs.Wire.Faults
import Ssz.Text.Codec

/-!
# How the readers of shapes fail

The errors of a reader include that a value is of the wrong shape, for the sake of
those who rebuild a value of a type from what was read. The readers of shapes
themselves never say so: they only find fault with their input.
-/

namespace Ssz

open Text

/-- A fault in the contents of a field, whatever the format they are written in. -/
def TextError.InField : TextError → Prop
  | .missingField _ | .invalidField _ _ | .incorrectLength _ _ _ | .exceedsMaximum _ _ _ => True
  | _ => False

variable {d : Dialect} {label : String}

theorem inField_failsWith {α : Type} (x : Except FieldError α) :
    FailsWith TextError.InField (inField label x) := by
  cases x with
  | ok a => exact .ok a
  | error cause => exact .error trivial

theorem present_failsWith (entry : Option Tree) :
    FailsWith TextError.InField (present label entry) := by
  unfold present
  split
  · exact .error trivial
  · exact .error trivial
  · split
    · exact .error trivial
    · exact .ok _
  · exact .ok _

theorem exactly_failsWith (expected actual : Nat) :
    FailsWith TextError.InField (exactly label expected actual) := by
  unfold exactly
  split
  · exact .ok ()
  · exact .error trivial

theorem atMost_failsWith (max actual : Nat) :
    FailsWith TextError.InField (atMost label max actual) := by
  unfold atMost
  split
  · exact .error trivial
  · exact .ok ()

theorem bitVectorOf_failsWith (length : Nat) (bytes : Bytes) :
    FailsWith TextError.InField (bitVectorOf label length bytes) := by
  unfold bitVectorOf
  split
  · exact .ok _
  · exact .error trivial

theorem bitListOf_failsWith (max : Nat) (bytes : Bytes) :
    FailsWith TextError.InField (bitListOf label max bytes) := by
  unfold bitListOf
  split
  · exact .ok _
  · exact .error trivial
  · exact .error trivial

end Ssz
