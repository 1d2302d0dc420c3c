-- SUMMARY: A block that has been compressed decompresses to its contents.
import Mathlib.Tactic.Ring
import Ssz.Proofs.Except
import Ssz.Snappy

/-!
# Snappy

The writer of blocks uses literals of one form only. Reading them back takes one
lemma for the length in front and one for the run of literals after it: each puts
what it was cut off back at the end of what has been read.
-/

namespace Ssz.Snappy

/-! ## Lengths -/

theorem readLength_last {n shift done steps : Nat} (hn : n < 128) (hfits : n * 2 ^ shift < 2 ^ 64)
    (rest : Bytes) :
    readLength (steps + 1) shift done (UInt8.ofNat n :: rest)
      = some (done + n * 2 ^ shift, rest) := by
  have hbyte : (UInt8.ofNat n).toNat = n := Nat.mod_eq_of_lt (by omega)
  have hbits : n % 128 * Nat.pow 2 shift % 0x10000000000000000 = n * 2 ^ shift := by
    rw [Nat.mod_eq_of_lt hn]
    exact Nat.mod_eq_of_lt hfits
  rw [readLength]
  simp only [hbyte, hbits, if_pos hn]

theorem readLength_next {low shift done steps : Nat} (hlow : low < 128)
    (hfits : low * 2 ^ shift < 2 ^ 64) (rest : Bytes) :
    readLength (steps + 1) shift done (UInt8.ofNat (128 + low) :: rest)
      = readLength steps (shift + 7) (done + low * 2 ^ shift) rest := by
  have hbyte : (UInt8.ofNat (128 + low)).toNat = 128 + low := Nat.mod_eq_of_lt (by omega)
  have hlarge : ¬128 + low < 128 := by omega
  have hbits : (128 + low) % 128 * Nat.pow 2 shift % 0x10000000000000000 = low * 2 ^ shift := by
    rw [Nat.add_mod_left, Nat.mod_eq_of_lt hlow]
    exact Nat.mod_eq_of_lt hfits
  rw [readLength]
  simp only [hbyte, hbits, if_neg hlarge]

/-- A length that is written in some steps is read back in as many. -/
theorem readLength_writeLength {steps n shift done : Nat} (hsteps : n < 128 ^ (steps + 1))
    (hfits : n * 2 ^ shift < 2 ^ 64) (rest : Bytes) :
    readLength (steps + 1) shift done (writeLength (steps + 1) n ++ rest)
      = some (done + n * 2 ^ shift, rest) := by
  induction steps generalizing n shift done with
  | zero =>
    have hn : n < 128 := hsteps
    rw [writeLength, if_pos hn]
    exact readLength_last hn hfits rest
  | succ steps ih =>
    rw [writeLength]
    split
    · rename_i hn
      exact readLength_last hn hfits rest
    · have hlow : n % 128 < 128 := Nat.mod_lt _ (by decide)
      have hsplit : n % 128 * 2 ^ shift + n / 128 * 2 ^ (shift + 7) = n * 2 ^ shift := by
        calc n % 128 * 2 ^ shift + n / 128 * 2 ^ (shift + 7)
            = (128 * (n / 128) + n % 128) * 2 ^ shift := by rw [Nat.pow_add]; ring
          _ = n * 2 ^ shift := by rw [Nat.div_add_mod]
      have hhigh : n / 128 < 128 ^ (steps + 1) := by
        rw [Nat.div_lt_iff_lt_mul (by decide), ← Nat.pow_succ]
        exact hsteps
      rw [List.cons_append, readLength_next hlow (by omega), ih hhigh (by omega), Nat.add_assoc,
        hsplit]

/-! ## Literals -/

theorem literalLength_short {length : Nat} (hpos : 0 < length) (hmax : length ≤ maxLiteral)
    (rest : Bytes) : literalLength (4 * (length - 1)) rest = some (length, rest) := by
  have hshort : 4 * (length - 1) / 4 + 1 = length := by omega
  have hwidth : length - 60 = 0 := Nat.sub_eq_zero_of_le hmax
  simp only [literalLength, hshort, hwidth, if_true]

/-- A literal is put behind what has been read. -/
theorem readElements_literal {bytes rest : Bytes} {expected fuel : Nat} {out : Array UInt8}
    (hpos : 0 < bytes.length) (hmax : bytes.length ≤ maxLiteral)
    (hroom : out.size + bytes.length ≤ expected) :
    readElements expected (fuel + 1) out (literal bytes ++ rest)
      = readElements expected fuel (out ++ bytes.toArray) rest := by
  have htag : (UInt8.ofNat (4 * (bytes.length - 1))).toNat = 4 * (bytes.length - 1) := by
    have hsmall : bytes.length ≤ 60 := hmax
    exact Nat.mod_eq_of_lt (by omega)
  have hkind : (UInt8.ofNat (4 * (bytes.length - 1))).toNat % 4 = 0 := by
    rw [htag]
    exact Nat.mul_mod_right 4 _
  have hfits : ¬(expected < out.size + bytes.length ∨ (bytes ++ rest).length < bytes.length) := by
    rw [List.length_append]
    omega
  -- The reader is opened by its two branches; its equations are too large to rewrite with.
  refine (if_pos hkind).trans ?_
  rw [htag, List.append_eq, literalLength_short hpos hmax]
  refine (if_neg hfits).trans ?_
  rw [List.take_left, List.drop_left]

theorem readElements_nil {expected fuel : Nat} {out : Array UInt8} (hfuel : 0 < fuel)
    (h : out.size = expected) : readElements expected fuel out [] = .ok out := by
  obtain ⟨fuel, rfl⟩ := Nat.exists_eq_succ_of_ne_zero hfuel.ne'
  exact if_pos h

/-- The literals of some bytes are read as the bytes. -/
theorem readElements_literals {bytes : Bytes} {steps fuel expected : Nat} {out : Array UInt8}
    (hsteps : bytes.length ≤ steps) (hfuel : (literals steps bytes).length < fuel)
    (hexpected : out.size + bytes.length = expected) :
    readElements expected fuel out (literals steps bytes) = .ok (out ++ bytes.toArray) := by
  induction steps generalizing bytes fuel out with
  | zero =>
    obtain rfl := List.eq_nil_of_length_eq_zero (Nat.le_zero.1 hsteps)
    exact readElements_nil hfuel hexpected
  | succ steps ih =>
    by_cases hempty : bytes = []
    · subst hempty
      exact readElements_nil hfuel hexpected
    · have hcount : 0 < bytes.length := List.length_pos_of_ne_nil hempty
      have htake : (bytes.take maxLiteral).length = min maxLiteral bytes.length := List.length_take
      have hdrop : (bytes.drop maxLiteral).length = bytes.length - maxLiteral := List.length_drop
      have hmax : 0 < maxLiteral := by decide
      have hliterals : literals (steps + 1) bytes
          = literal (bytes.take maxLiteral) ++ literals steps (bytes.drop maxLiteral) := by
        rw [literals, if_neg (by simpa using hempty)]
      rw [hliterals, List.length_append, literal, List.length_cons] at hfuel
      -- The literal takes a byte besides its contents, so a step is left for what follows it.
      obtain ⟨fuel, rfl⟩ : ∃ n, fuel = n + 1 := ⟨fuel - 1, by omega⟩
      have hsize : (out ++ (bytes.take maxLiteral).toArray).size
          = out.size + (bytes.take maxLiteral).length := Array.size_append
      have hjoin : (bytes.take maxLiteral).toArray ++ (bytes.drop maxLiteral).toArray
          = bytes.toArray := by
        rw [List.append_toArray, List.take_append_drop]
      have hrest := @ih (bytes.drop maxLiteral) fuel (out ++ (bytes.take maxLiteral).toArray)
        (by omega) (by omega) (by omega)
      rw [hliterals, readElements_literal (by omega) (by omega) (by omega), hrest,
        Array.append_assoc, hjoin]

/-! ## Blocks -/

/-- A block has the contents that it was made of, if they are no longer than the format allows. -/
theorem decompress_compress {bytes : Bytes} (h : bytes.length ≤ maxLength) :
    decompress (compress bytes) = .ok bytes := by
  have hsmall : bytes.length < 2 ^ 32 := Nat.lt_succ_of_le h
  have hlength : readLength 10 0 0 (compress bytes)
      = some (0 + bytes.length * 2 ^ 0, literals (bytes.length + 1) bytes) :=
    readLength_writeLength (by omega) (by omega) _
  rw [Nat.pow_zero, Nat.mul_one, Nat.zero_add] at hlength
  have hfilled : (compress bytes).isEmpty = false := by
    cases hblock : compress bytes with
    | nil =>
      rw [hblock] at hlength
      cases hlength
    | cons => rfl
  have helements : readElements bytes.length ((literals (bytes.length + 1) bytes).length + 1) #[]
      (literals (bytes.length + 1) bytes) = .ok (#[] ++ bytes.toArray) :=
    readElements_literals (Nat.le_succ _) (Nat.lt_succ_self _) (Nat.zero_add _)
  rw [Array.empty_append] at helements
  rw [decompress, hfilled, hlength]
  simp only [Nat.not_lt.2 h, helements]
  rfl

/-- Contents of up to `maxLength` bytes are kept, which is as many as the format takes. -/
theorem keeps {bytes : Bytes} (h : bytes.length ≤ maxLength) : format.Keeps bytes := by
  refine ⟨compress bytes, if_neg (Nat.not_lt.2 h), ?_⟩
  exact mapError_eq_ok.2 (decompress_compress h)

end Ssz.Snappy
