-- SUMMARY: The white space characters of Unicode, and texts made of nothing else.

/-!
# White space

A text that holds white space alone counts as no text at all. The class is the
Unicode property `White_Space`.
-/

namespace Ssz

/-- Ranges of the Unicode property `White_Space`, first and last code point. -/
def whiteSpace : List (Nat × Nat) := [
  (0x0009, 0x000D), (0x0020, 0x0020), (0x0085, 0x0085), (0x00A0, 0x00A0), (0x1680, 0x1680),
  (0x2000, 0x200A), (0x2028, 0x2029), (0x202F, 0x202F), (0x205F, 0x205F), (0x3000, 0x3000)]

def isWhiteSpace (c : Char) : Bool :=
  whiteSpace.any fun (first, last) => first ≤ c.toNat && c.toNat ≤ last

/-- Whether a text holds nothing but white space. -/
def isBlank (text : List Char) : Bool := text.all isWhiteSpace

end Ssz
