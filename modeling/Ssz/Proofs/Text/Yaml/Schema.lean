-- SUMMARY: What plain scalars mean: numerals are numbers, and identifiers are strings.
import Ssz.Proofs.Text.Yaml.Line
import Ssz.Text.Yaml.Core

/-!
# Plain scalars

Among words of letters and digits, the schema tells nulls and booleans by their
spelling and numbers by their digits. A word that starts with a letter is none of
the latter, however it goes on.
-/

namespace Ssz.Text.Yaml

/-! ## Characters -/

/-- A letter is no digit, and has no value as one. -/
theorem digit?_isLetter {c : Char} (h : isLetter c = true) :
    Core.isDigit c = false ∧ Core.digit? 10 c = none := by
  have hplain : isPlainChar c = true := by rw [isPlainChar, h, Bool.true_or]
  have hc := toNat_isPlainChar hplain
  exact of_toNat_lt
    (fun c => isLetter c = true → Core.isDigit c = false ∧ Core.digit? 10 c = none)
    (by decide) (by omega) h

namespace Core

theorem digit?_digitChar : ∀ d < 10, digit? 10 (Nat.digitChar d) = some d := by decide

theorem digits?_digits (n : Nat) : digits? 10 (Decimal.digits n) = some n := by
  have hfold : (Decimal.digits n).foldlM (fun n c => (digit? 10 c).map (10 * n + ·)) 0
      = some n := by
    induction n using Decimal.digits_induction with
    | digit n hn =>
      rw [Decimal.digits_of_lt hn, List.foldlM_cons, digit?_digitChar n hn]
      simp
    | tens n hn ih =>
      have hlast := digit?_digitChar (n % 10) (Nat.mod_lt _ (by decide))
      rw [Decimal.digits_of_ge hn, List.foldlM_append, ih]
      simp [hlast, Nat.div_add_mod]
  have hempty : (Decimal.digits n).isEmpty = false :=
    List.isEmpty_eq_false_iff.2 (Decimal.digits_ne_nil n)
  rw [digits?, hempty, hfold]
  rfl

/-! ## Words -/

section Words

variable {c : Char} {cs : List Char}

theorem unsigned_of_ne (hplus : c ≠ '+') (hminus : c ≠ '-') : unsigned (c :: cs) = c :: cs := by
  unfold unsigned
  split
  · rename_i heq
    exact absurd (List.cons.inj heq).1 hplus
  · rename_i heq
    exact absurd (List.cons.inj heq).1 hminus
  · rfl

theorem hasLeadingZero_of_ne (hplus : c ≠ '+') (hminus : c ≠ '-') (hzero : c ≠ '0') :
    hasLeadingZero (c :: cs) = false := by
  rw [hasLeadingZero, unsigned_of_ne hplus hminus]
  split
  · rename_i heq
    exact absurd (List.cons.inj heq).1 hzero
  · rfl

theorem numeral?_of_ne (hzero : c ≠ '0') : numeral? false (c :: cs) = digits? 10 (c :: cs) := by
  unfold numeral?
  split
  iterate 3
    rename_i heq
    exact absurd (List.cons.inj heq).1 hzero
  rfl

theorem int?_of_ne (hplus : c ≠ '+') (hminus : c ≠ '-') (hzero : c ≠ '0') :
    int? (c :: cs) = (digits? 10 (c :: cs)).map fun (n : Nat) => (n : Int) := by
  unfold int?
  rw [hasLeadingZero_of_ne hplus hminus hzero]
  split
  · rename_i heq
    exact absurd (List.cons.inj heq).1 hminus
  · rename_i heq
    exact absurd (List.cons.inj heq).1 hplus
  · simp only [numeral?_of_ne hzero]
    cases digits? 10 (c :: cs) <;> rfl

end Words

theorem contains_eq_false {word : List Char} (h : word ∉ reservedWords.map String.toList)
    {words : List (List Char)} (hwords : ∀ w ∈ words, w ∈ reservedWords.map String.toList) :
    words.contains word = false := by
  rw [List.contains_eq_mem, decide_eq_false_iff_not]
  exact fun hmem => h (hwords word hmem)

/-- A word that is not reserved is tried as an integer before anything else. -/
theorem resolve_of_notMem {word : List Char} (hne : word ≠ [])
    (h : word ∉ reservedWords.map String.toList) (hzero : hasLeadingZero word = false) :
    resolve word
      = match boundedInt? word with
        | some i => ofInt? i
        | none => some ((float? word).getD (.string word)) := by
  have hempty : word.isEmpty = false := List.isEmpty_eq_false_iff.2 hne
  have hnull : isNull word = false := contains_eq_false h (by decide)
  have hbool : bool? word = none := by
    rw [bool?, contains_eq_false h (by decide), contains_eq_false h (by decide)]
    rfl
  rw [resolve, hempty, hnull, hbool, hzero]
  rfl

/-! ## Numerals -/

theorem int?_digits (n : Nat) :
    hasLeadingZero (Decimal.digits n) = false ∧ int? (Decimal.digits n) = some (n : Int) := by
  obtain ⟨c, cs, hdigits⟩ := List.exists_cons_of_ne_nil (Decimal.digits_ne_nil n)
  have hplain : isPlainChar c = true :=
    isPlainChar_of_isDigit (Decimal.isDigit_of_mem_digits (hdigits ▸ List.mem_cons_self))
  have hplus : c ≠ '+' := ne_of_isPlainChar hplain rfl
  have hminus : c ≠ '-' := ne_of_isPlainChar hplain rfl
  by_cases hzero : c = '0'
  · have hn : n = 0 := Decimal.eq_zero_of_digits (hzero ▸ hdigits)
    rw [hn, Decimal.digits_of_lt (by decide)]
    exact ⟨rfl, rfl⟩
  · have hvalue := digits?_digits n
    rw [hdigits] at hvalue ⊢
    exact ⟨hasLeadingZero_of_ne hplus hminus hzero,
      by rw [int?_of_ne hplus hminus hzero, hvalue, Option.map_some]⟩

theorem notMem_reservedWords {n : Nat} :
    Decimal.digits n ∉ reservedWords.map String.toList := by
  have hwords : (reservedWords.map String.toList).any (·.any Char.isDigit) = false := by decide
  intro hmem
  obtain ⟨c, hc⟩ := List.exists_mem_of_ne_nil _ (Decimal.digits_ne_nil n)
  have hdigit := List.any_eq_true.2 ⟨c, hc, Decimal.isDigit_of_mem_digits hc⟩
  exact List.any_eq_false.1 hwords _ hmem hdigit

/-- A numeral that fits 64 bits is that number. -/
theorem resolve_digits {n : Nat} (h : n < Number.bound) :
    resolve (Decimal.digits n) = some (.number (.natural n)) := by
  obtain ⟨hzero, hint⟩ := int?_digits n
  have hfits : fits128 (n : Int) = true := by
    have hnonneg : ¬ (n : Int) < 0 := Int.not_lt.2 (Int.natCast_nonneg n)
    rw [fits128, if_neg hnonneg, Int.natAbs_natCast, decide_eq_true_iff]
    exact Nat.lt_trans h (by decide)
  have hvalue : ofInt? n = some (.number (.natural n)) := by
    rw [ofInt?, if_pos (Int.natCast_nonneg n), if_pos (Int.ofNat_lt.2 h), Int.toNat_natCast]
  rw [resolve_of_notMem (Decimal.digits_ne_nil n) notMem_reservedWords hzero, boundedInt?, hint,
    Option.filter_some, hfits]
  exact hvalue

/-! ## Identifiers -/

/-- A float starts with a digit or with one of a few marks. -/
theorem float?_of_letter {c : Char} {cs : List Char} (hplain : isPlainChar c = true)
    (hdigit : isDigit c = false) : float? (c :: cs) = none := by
  have hne {d : Char} (hd : isPlainChar d = false) : c ≠ d := ne_of_isPlainChar hplain hd
  have hpoint {d : Char} (ds : List Char) (hd : isPlainChar d = false) : c :: cs ≠ d :: ds :=
    fun heq => hne hd (List.cons.inj heq).1
  have hfinite : finite? (c :: cs) = none := by
    unfold finite?
    split
    · rename_i heq
      exact absurd heq (hpoint _ rfl)
    · rename_i heq
      exact absurd heq (hpoint _ rfl)
    · have htake : (c :: cs).takeWhile isDigit = [] := by simp [hdigit]
      have hdrop : (c :: cs).dropWhile isDigit = c :: cs := by simp [hdigit]
      simp only [decimal?, htake, hdrop]
      split
      · rename_i heq
        exact absurd heq (hpoint _ rfl)
      · rfl
  simp [float?, isInfinity, isNan, hne (d := '.') rfl, hne (d := '+') rfl, hne (d := '-') rfl,
    hfinite]

/-- An identifier is a string. -/
theorem resolve_identifier {name : List Char} (h : Identifier name) :
    resolve name = some (.string name) := by
  obtain ⟨c, cs, rfl⟩ := List.exists_cons_of_ne_nil h.ne_nil
  have hletter : isLetter c = true := h.head c rfl
  have hplain : isPlainChar c = true := h.plain c List.mem_cons_self
  obtain ⟨hdigit, hvalue⟩ := digit?_isLetter hletter
  have hplus : c ≠ '+' := ne_of_isPlainChar hplain rfl
  have hminus : c ≠ '-' := ne_of_isPlainChar hplain rfl
  have hzero : c ≠ '0' := by
    intro heq
    rw [heq] at hletter
    cases hletter
  have hdigits : digits? 10 (c :: cs) = none := by
    rw [digits?, List.foldlM_cons, hvalue]
    rfl
  rw [resolve_of_notMem h.ne_nil h.meaning (hasLeadingZero_of_ne hplus hminus hzero), boundedInt?,
    int?_of_ne hplus hminus hzero, hdigits, float?_of_letter hplain hdigit]
  rfl

end Core

end Ssz.Text.Yaml
