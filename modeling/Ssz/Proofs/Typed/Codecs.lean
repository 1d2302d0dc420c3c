-- SUMMARY: The values of a type are read from what the values of its shape are read from.
import Ssz.Proofs.Failures
import Ssz.Proofs.Text.Inputs
import Ssz.Proofs.Typed.Lawful
import Ssz.Proofs.Wire.Canonical
import Ssz.Proofs.Wire.Ranged

/-!
# Typed readers

A typed reader runs the reader of the shape and rebuilds what that returns. The
readers of shapes return well-formed values only, and those are the ones that can
be rebuilt. So the second step never fails, and a typed reader accepts and refuses
the same inputs as the reader of the shape, with the same errors.

Sizes that do not fit a word are the exception: the binary reader may then return a
vector without its elements, which is not well-formed and cannot be rebuilt.
-/

namespace Ssz

namespace Schema.Lawful

variable {α : Type} {s : Schema α}

theorem exists_ofValue (h : s.Lawful) {v : Value} (hv : s.shape.check v = .ok ()) :
    ∃ x, s.ofValue v = .ok x ∧ s.toValue x = v := by
  obtain ⟨x, hx⟩ := h.check_eq_ok.1 hv
  exact ⟨x, h.ofValue_eq_ok.2 hx, hx⟩

end Schema.Lawful

end Ssz
