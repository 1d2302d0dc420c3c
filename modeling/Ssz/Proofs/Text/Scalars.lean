-- SUMMARY: Decimal and hexadecimal text is read back, and which characters it is made of.
import Ssz.Proofs.Except
import Ssz.Text.Decimal
import Ssz.Text.Hex
import Mathlib.Data.List.Basic

/-!
# Scalars as text

The readers of decimal and of hexadecimal text undo the writers. Beside that, the
laws say what the written text looks like, since a format decides by the first
characters of a scalar what it is.
-/

namespace Ssz

/-! ## Decimal numerals -/

namespace Decimal

theorem digits_of_lt {n : Nat} (h : n < 10) : digits n = [Nat.digitChar n] := by
  rw [digits, if_pos h]

theorem digits_of_ge {n : Nat} (h : 10 ≤ n) :
    digits n = digits (n / 10) ++ [Nat.digitChar (n % 10)] := by
  rw [digits, if_neg (Nat.not_lt.2 h)]

/-- A numeral is its last digit behind the numeral of the tens. -/
theorem digits_induction {motive : Nat → Prop} (digit : ∀ n < 10, motive n)
    (tens : ∀ n, 10 ≤ n → motive (n / 10) → motive n) (n : Nat) : motive n := by
  induction n using Nat.strongRecOn with
  | ind n ih =>
    by_cases h : n < 10
    · exact digit n h
    · exact tens n (Nat.not_lt.1 h) (ih _ (Nat.div_lt_self (by omega) (by decide)))

theorem digit?_digitChar : ∀ d < 10, digit? (Nat.digitChar d) = some d := by decide

theorem isDigit_digitChar : ∀ d < 10, (Nat.digitChar d).isDigit = true := by decide

theorem isDigit_of_mem_digits {n : Nat} {c : Char} (h : c ∈ digits n) : c.isDigit = true := by
  induction n using digits_induction with
  | digit n hn =>
    rw [digits_of_lt hn, List.mem_singleton] at h
    exact h ▸ isDigit_digitChar n hn
  | tens n hn ih =>
    rw [digits_of_ge hn, List.mem_append, List.mem_singleton] at h
    rcases h with h | rfl
    · exact ih h
    · exact isDigit_digitChar _ (Nat.mod_lt _ (by decide))

theorem digits_ne_nil (n : Nat) : digits n ≠ [] := by
  rw [digits]
  split
  · exact List.cons_ne_nil _ _
  · exact List.append_ne_nil_of_right_ne_nil _ (List.cons_ne_nil _ _)

/-- Only the number zero is written with a leading zero. -/
theorem eq_zero_of_digits {n : Nat} {cs : List Char} (h : digits n = '0' :: cs) : n = 0 := by
  induction n using digits_induction generalizing cs with
  | digit n hn =>
    rw [digits_of_lt hn] at h
    have hdigit := congrArg digit? (List.cons.inj h).1
    rw [digit?_digitChar n hn] at hdigit
    exact Option.some.inj hdigit
  | tens n hn ih =>
    rw [digits_of_ge hn] at h
    obtain ⟨c, rest, hrest⟩ := List.exists_cons_of_ne_nil (digits_ne_nil (n / 10))
    rw [hrest] at h
    have hc : c = '0' := (List.cons.inj h).1
    have hzero := ih (hc ▸ hrest)
    omega

/-- The reader goes on behind a numeral with the number that it stands for. -/
theorem readFrom_digits {bound n : Nat} (h : n < bound) (cs : List Char) :
    readFrom bound 0 (digits n ++ cs) = readFrom bound n cs := by
  induction n using digits_induction generalizing cs with
  | digit n hn =>
    simp only [digits_of_lt hn, List.singleton_append, readFrom, digit?_digitChar n hn,
      Nat.mul_zero, Nat.zero_add, if_pos h]
  | tens n hn ih =>
    have hlast := digit?_digitChar (n % 10) (Nat.mod_lt _ (by decide))
    have hn' : 10 * (n / 10) + n % 10 = n := Nat.div_add_mod n 10
    rw [digits_of_ge hn, List.append_assoc, ih (Nat.lt_of_le_of_lt (Nat.div_le_self n 10) h)]
    simp only [List.singleton_append, readFrom, hlast, hn', if_pos h]

theorem read_digits {bound n : Nat} (h : n < bound) : read bound (digits n) = .ok n := by
  have hread := readFrom_digits h []
  rwa [List.append_nil] at hread

/-- A numeral of a number that is too large is refused. -/
theorem read_digits_of_ge {bound n : Nat} (h : bound ≤ n) :
    read bound (digits n) = .error .tooLarge := by
  have hlarge : ∀ cs, readFrom bound 0 (digits n ++ cs) = .error .tooLarge := by
    induction n using digits_induction with
    | digit n hn =>
      intro cs
      simp only [digits_of_lt hn, List.singleton_append, readFrom, digit?_digitChar n hn,
        Nat.mul_zero, Nat.zero_add, if_neg (Nat.not_lt.2 h)]
    | tens n hn ih =>
      intro cs
      rw [digits_of_ge hn, List.append_assoc]
      by_cases htens : bound ≤ n / 10
      · exact ih htens _
      · have hlast := digit?_digitChar (n % 10) (Nat.mod_lt _ (by decide))
        have hn' : 10 * (n / 10) + n % 10 = n := Nat.div_add_mod n 10
        rw [readFrom_digits (Nat.not_le.1 htens)]
        simp only [List.singleton_append, readFrom, hlast, hn', if_neg (Nat.not_lt.2 h)]
  have hread := hlarge []
  rwa [List.append_nil] at hread

@[simp] theorem toList_render (n : Nat) : (render n).toList = digits n := String.toList_ofList

end Decimal

/-! ## Hexadecimal text -/

namespace Hex

/-- The code of a digit. -/
def digitCode (d : Nat) : UInt8 := UInt8.ofNat (Nat.digitChar d).toNat

theorem utf8EncodeChar_digitChar :
    ∀ d < 16, String.utf8EncodeChar (Nat.digitChar d) = [digitCode d] := by decide

theorem nibble?_digitCode : ∀ d < 16, nibble? (digitCode d) = some (UInt8.ofNat d) := by decide

theorem digits_cons (b : UInt8) (bytes : Bytes) :
    digits (b :: bytes)
      = Nat.digitChar (b.toNat / 16) :: Nat.digitChar (b.toNat % 16) :: digits bytes := rfl

theorem utf8_cons (c : Char) (text : List Char) :
    utf8 (c :: text) = String.utf8EncodeChar c ++ utf8 text := List.flatMap_cons

theorem join_nibbles (b : UInt8) :
    16 * UInt8.ofNat (b.toNat / 16) + UInt8.ofNat (b.toNat % 16) = b := by
  have hb : b.toNat < 256 := b.toNat_lt
  rw [← UInt8.toNat_inj]
  simp only [UInt8.toNat_add, UInt8.toNat_mul, UInt8.toNat_ofNat', UInt8.reduceToNat]
  omega

/-- The codes of the digits of bytes: two for each byte, which are read back to it. -/
theorem readPairs_digits (index : Nat) (bytes : Bytes) :
    (utf8 (digits bytes)).length = 2 * bytes.length ∧
      readPairs index (utf8 (digits bytes)) = .ok bytes := by
  induction bytes generalizing index with
  | nil => exact ⟨rfl, rfl⟩
  | cons b bytes ih =>
    have hb : b.toNat < 256 := b.toNat_lt
    have hhigh : b.toNat / 16 < 16 := by omega
    have hlow : b.toNat % 16 < 16 := Nat.mod_lt _ (by decide)
    obtain ⟨hlength, hread⟩ := ih (index + 2)
    have hcodes : utf8 (digits (b :: bytes))
        = digitCode (b.toNat / 16) :: digitCode (b.toNat % 16) :: utf8 (digits bytes) := by
      rw [digits_cons, utf8_cons, utf8_cons, utf8EncodeChar_digitChar _ hhigh,
        utf8EncodeChar_digitChar _ hlow]
      rfl
    rw [hcodes]
    refine ⟨?_, ?_⟩
    · rw [List.length_cons, List.length_cons, hlength, List.length_cons]
      omega
    · simp only [readPairs, nibble, nibble?_digitCode _ hhigh, nibble?_digitCode _ hlow, hread]
      exact congrArg (fun c => Except.ok (c :: bytes)) (join_nibbles b)

theorem read_digits (bytes : Bytes) : read (digits bytes) = .ok bytes := by
  obtain ⟨hlength, hread⟩ := readPairs_digits 0 bytes
  have heven : ¬ (utf8 (digits bytes)).length % 2 = 1 := by omega
  rw [read, if_neg heven, hread]

theorem readMarked_marked (bytes : Bytes) : readMarked (marked bytes) = .ok bytes := by
  rw [readMarked, marked, unmarked, read_digits]

@[simp] theorem toList_renderMarked (bytes : Bytes) : (renderMarked bytes).toList = marked bytes :=
  String.toList_ofList

end Hex

end Ssz
