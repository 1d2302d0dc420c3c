-- SUMMARY: Integers have one grammar: digits, whose number is below the bound of the width.
import Ssz.Proofs.Text.Accepts
import Ssz.Proofs.Text.ExactNumbers
import Mathlib.Data.Nat.Digits.Defs

/-!
# Numerals

Integers of up to 128 bits are read by one parser and those of 256 bits by another.
The first also takes a plus sign in front, and the second takes no digits at all for
zero. A text has to start with a digit before either sees it, so that there is one
grammar: the width only sets the bound. It is stated here by places, while the reader
goes from the left and stops as soon as the number is too large.
-/

namespace Ssz

open Text

/-! ## Numbers by places -/

namespace Decimal

def AllDigits (text : List Char) : Prop := ∀ c ∈ text, c.isDigit = true

/-- At least one digit, and nothing else. Leading zeros are allowed. -/
structure Numeral (text : List Char) : Prop where
  ne_nil : text ≠ []
  digits : AllDigits text

instance (text : List Char) : Decidable (AllDigits text) :=
  List.decidableBAll (fun c : Char => c.isDigit = true) text

instance (text : List Char) : Decidable (Numeral text) :=
  decidable_of_iff (text ≠ [] ∧ AllDigits text)
    ⟨fun h => ⟨h.1, h.2⟩, fun h => ⟨h.ne_nil, h.digits⟩⟩

/-- The number that digits stand for, the last of them being the units. -/
def value (text : List Char) : Nat :=
  Nat.ofDigits 10 (text.reverse.map fun c => c.toNat - '0'.toNat)

@[simp] theorem value_nil : value [] = 0 := rfl

theorem value_cons (c : Char) (cs : List Char) :
    value (c :: cs) = value cs + 10 ^ cs.length * (c.toNat - '0'.toNat) := by
  simp only [value, List.reverse_cons, List.map_append, Nat.ofDigits_append, List.length_map,
    List.length_reverse, List.map_cons, List.map_nil, Nat.ofDigits_singleton]

theorem isDigit_iff {c : Char} : c.isDigit = true ↔ '0' ≤ c ∧ c ≤ '9' := by
  simp only [Char.isDigit, Bool.and_eq_true, decide_eq_true_eq]
  rfl

theorem digit?_eq_some {c : Char} {d : Nat} :
    digit? c = some d ↔ c.isDigit = true ∧ d = c.toNat - '0'.toNat := by
  rw [isDigit_iff, digit?]
  split <;> simp_all [eq_comm]

theorem digit?_eq_none {c : Char} : digit? c = none ↔ ¬ c.isDigit = true := by
  rw [isDigit_iff, digit?]
  split <;> simp_all

/-! ## What the reader accepts -/

section Reading

variable {bound n m : Nat} {text : List Char}

/-- A number only grows with more digits, so one that was too large never comes below the bound
    again. -/
theorem readFrom_eq_ok_iff (hn : n < bound) :
    readFrom bound n text = .ok m ↔
      AllDigits text ∧ 10 ^ text.length * n + value text = m ∧ m < bound := by
  induction text generalizing n with
  | nil =>
    simp only [readFrom, AllDigits, Except.ok.injEq, List.not_mem_nil, false_imp_iff, implies_true,
      List.length_nil, pow_zero, one_mul, value_nil, add_zero, true_and]
    exact (and_iff_left_of_imp fun hm => hm ▸ hn).symm
  | cons c cs ih =>
    have hsum (d : Nat) : 10 ^ (cs.length + 1) * n + (value cs + 10 ^ cs.length * d)
        = 10 ^ cs.length * (10 * n + d) + value cs := by ring
    rw [readFrom, AllDigits, List.forall_mem_cons, value_cons, List.length_cons]
    cases hdigit : digit? c with
    | none => simp [digit?_eq_none.1 hdigit]
    | some d =>
      obtain ⟨hc, rfl⟩ := digit?_eq_some.1 hdigit
      rw [hsum]
      simp only [hc, true_and]
      split
      case isTrue hlt => exact ih hlt
      case isFalse hge =>
        simp only [reduceCtorEq, false_iff, not_and]
        intro _ hm hlt
        have hgrows : 10 * n + (c.toNat - '0'.toNat)
            ≤ 10 ^ cs.length * (10 * n + (c.toNat - '0'.toNat)) :=
          Nat.le_mul_of_pos_left _ (by positivity)
        omega

theorem read_eq_ok_iff (hbound : 0 < bound) :
    read bound text = .ok m ↔ AllDigits text ∧ value text = m ∧ m < bound := by
  rw [read, readFrom_eq_ok_iff hbound, Nat.mul_zero, Nat.zero_add]

end Reading

theorem numeral_digits (n : Nat) : Numeral (digits n) where
  ne_nil := digits_ne_nil n
  digits _ := isDigit_of_mem_digits

@[simp] theorem value_digits (n : Nat) : value (digits n) = n :=
  ((read_eq_ok_iff n.succ_pos).1 (read_digits n.lt_succ_self)).2.1

end Decimal

/-! ## Two parsers and one guard -/

open Decimal

theorem UintWidth.bound_pos (width : UintWidth) : 0 < width.bound := Nat.pow_pos (Nat.succ_pos 1)

/-- What the parser of a width takes `text` for. Up to 128 bits there may be one plus sign in front
    of the digits, of which there is at least one. With 256 bits there is no sign, and no digits are
    zero. -/
def UintWidth.Parses (text : List Char) (n : Nat) : UintWidth → Prop
  | .u256 => AllDigits text ∧ value text = n ∧ n < UintWidth.u256.bound
  | width => ∃ digits, (text = digits ∨ text = '+' :: digits) ∧ Numeral digits ∧
      value digits = n ∧ n < width.bound

/-- The guard in front of both parsers. -/
def StartsWithDigit (text : List Char) : Prop := ∃ c cs, text = c :: cs ∧ c.isDigit = true

theorem Decimal.Numeral.startsWithDigit {text : List Char} (h : Numeral text) :
    StartsWithDigit text := by
  obtain ⟨c, cs, rfl⟩ := List.exists_cons_of_ne_nil h.ne_nil
  exact ⟨c, cs, rfl, h.digits c List.mem_cons_self⟩

/-- Behind the guard the parsers differ in their bounds only. -/
theorem UintWidth.parses_iff {width : UintWidth} {text : List Char} {n : Nat}
    (h : StartsWithDigit text) :
    width.Parses text n ↔ Numeral text ∧ value text = n ∧ n < width.bound := by
  obtain ⟨c, cs, rfl, hc⟩ := h
  have hsigned (w : UintWidth) : (∃ digits, (c :: cs = digits ∨ c :: cs = '+' :: digits) ∧
      Numeral digits ∧ value digits = n ∧ n < w.bound) ↔
        Numeral (c :: cs) ∧ value (c :: cs) = n ∧ n < w.bound := by
    constructor
    · rintro ⟨digits, rfl | hsign, hdigits⟩
      · exact hdigits
      · cases hsign
        cases hc
    · exact fun hdigits => ⟨_, .inl rfl, hdigits⟩
  cases width with
  | u256 => exact and_congr_left' ⟨fun hall => ⟨List.cons_ne_nil _ _, hall⟩, Numeral.digits⟩
  | _ => exact hsigned _

/-! ## Texts -/

section Texts

variable {width : UintWidth} {text : String}

/-- The number that was read fits its width, so nothing is lost by keeping it in so many bits. -/
theorem UintWidth.ofNat_eq_iff {m : Nat} (hm : m < width.bound) {n : BitVec width.bits} :
    BitVec.ofNat width.bits m = n ↔ m = n.toNat := by
  have hmod : m % 2 ^ width.bits = m := Nat.mod_eq_of_lt hm
  rw [BitVec.toNat_eq, BitVec.toNat_ofNat, hmod]

theorem readUint_eq_ok_iff {n : BitVec width.bits} :
    readUint width text = .ok n ↔ Numeral text.toList ∧ value text.toList = n.toNat := by
  unfold readUint
  cases text.toList with
  | nil => exact iff_of_false nofun fun h => h.1.ne_nil rfl
  | cons c cs =>
    simp only
    split
    case isTrue hnone =>
      have hc := digit?_eq_none.1 (Option.isNone_iff_eq_none.1 hnone)
      exact iff_of_false nofun fun h => hc (h.1.digits c List.mem_cons_self)
    case isFalse =>
      cases hread : Decimal.read width.bound (c :: cs) with
      | ok m =>
        obtain ⟨hall, rfl, hm⟩ := (read_eq_ok_iff width.bound_pos).1 hread
        have hnumeral : Numeral (c :: cs) := ⟨List.cons_ne_nil c cs, hall⟩
        simp only [Except.ok.injEq, UintWidth.ofNat_eq_iff hm, hnumeral, true_and]
      | error cause =>
        refine iff_of_false nofun fun ⟨hnumeral, hvalue⟩ => ?_
        have hok := (read_eq_ok_iff width.bound_pos).2 ⟨hnumeral.digits, hvalue, n.isLt⟩
        cases hok.symm.trans hread

/-- The guard and the parser of the width behind it. -/
theorem readUint_eq_ok_iff_parses {n : BitVec width.bits} :
    readUint width text = .ok n ↔
      StartsWithDigit text.toList ∧ width.Parses text.toList n.toNat := by
  rw [readUint_eq_ok_iff]
  constructor
  · intro h
    exact ⟨h.1.startsWithDigit, (UintWidth.parses_iff h.1.startsWithDigit).2 ⟨h.1, h.2, n.isLt⟩⟩
  · rintro ⟨hguard, hparses⟩
    obtain ⟨hnumeral, hvalue, -⟩ := (UintWidth.parses_iff hguard).1 hparses
    exact ⟨hnumeral, hvalue⟩

theorem exists_readUint_iff :
    (∃ n, readUint width text = .ok n) ↔
      Numeral text.toList ∧ value text.toList < 2 ^ width.bits := by
  constructor
  · rintro ⟨n, hread⟩
    obtain ⟨hnumeral, hvalue⟩ := readUint_eq_ok_iff.1 hread
    exact ⟨hnumeral, hvalue ▸ n.isLt⟩
  · rintro ⟨hnumeral, hlt⟩
    exact ⟨.ofNatLT _ hlt, readUint_eq_ok_iff.2 ⟨hnumeral, rfl⟩⟩

end Texts

/-! ## Bare numbers -/

section Reading

variable {d : Dialect} {width : UintWidth} {label : String} {number : Number} {v : Value}

theorem inField_eq_ok {α : Type} {x : Except FieldError α} {a : α} :
    inField label x = .ok a ↔ x = .ok a := by
  cases x <;> simp [inField]

/-- A whole number is read from the digits that it is written with. -/
theorem readUint_render_iff {k : Nat} {n : BitVec width.bits} :
    readUint width (Decimal.render k) = .ok n ↔ k = n.toNat := by
  rw [readUint_eq_ok_iff, toList_render, value_digits, and_iff_right (numeral_digits k)]

theorem uintOf_number {n : BitVec width.bits} :
    uintOf d width label (.number number) = .ok n ↔
      d.acceptsNumbers = true ∧ number = .natural n.toNat := by
  unfold uintOf
  simp only
  split
  case isTrue haccepts =>
    cases number with
    | natural k =>
      simp only [inField_eq_ok, readUint_render_iff, haccepts, true_and, Number.natural.injEq]
    | negative | float => simp
  case isFalse haccepts => simp [haccepts]

theorem ofTree_uint_string {text : String} :
    (Shape.uint width).ofTree d label (.string text) = .ok v ↔
      ∃ n, readUint width text = .ok n ∧ v = .uint width n := by
  simp only [Shape.ofTree_uint, uintOf, inField_eq_ok]

theorem ofTree_uint_number :
    (Shape.uint width).ofTree d label (.number number) = .ok v ↔
      d.acceptsNumbers = true ∧
        ∃ n : BitVec width.bits, v = .uint width n ∧ number = .natural n.toNat := by
  simp only [Shape.ofTree_uint, uintOf_number]
  constructor
  · rintro ⟨n, ⟨haccepts, hn⟩, rfl⟩
    exact ⟨haccepts, n, rfl, hn⟩
  · rintro ⟨haccepts, n, rfl, hn⟩
    exact ⟨n, ⟨haccepts, hn⟩, rfl⟩

theorem exists_ofTree_uint_number (h : number.Exact) :
    (∃ v, (Shape.uint width).ofTree d label (.number number) = .ok v) ↔
      d.acceptsNumbers = true ∧
        ∃ k, number = .natural k ∧ k < 2 ^ 64 ∧ k < 2 ^ width.bits := by
  simp only [ofTree_uint_number]
  constructor
  · rintro ⟨v, haccepts, n, -, rfl⟩
    exact ⟨haccepts, n.toNat, rfl, h, n.isLt⟩
  · rintro ⟨haccepts, k, rfl, -, hk⟩
    exact ⟨_, haccepts, .ofNatLT k hk, rfl, rfl⟩

end Reading

/-! ## Every width -/

/-- A wider width reads the same number. What it reads beside that does not fit. -/
theorem readUint_wider {width wider : UintWidth} (h : width.bits ≤ wider.bits) {text : String}
    {n : BitVec width.bits} :
    readUint width text = .ok n ↔ readUint wider text = .ok (n.setWidth wider.bits) := by
  rw [readUint_eq_ok_iff, readUint_eq_ok_iff, BitVec.toNat_setWidth_of_le h]

/-- A text is read at a width if it is a numeral whose number is below the bound, behind whichever
    parser, and a bare number if the dialect takes these and it is a whole number below the bound.
    The trees of texts hold no other whole numbers than those of 64 bits. -/
theorem ofTree_uint_grammar (d : Dialect) (width : UintWidth) (label : String) :
    (∀ text v, (Shape.uint width).ofTree d label (.string text) = .ok v ↔
      ∃ n : BitVec width.bits, v = .uint width n ∧
        Numeral text.toList ∧ value text.toList = n.toNat) ∧
    (∀ text, (∃ v, (Shape.uint width).ofTree d label (.string text) = .ok v) ↔
      Numeral text.toList ∧ value text.toList < 2 ^ width.bits) ∧
    (∀ text n, readUint width text = .ok n ↔
      StartsWithDigit text.toList ∧ width.Parses text.toList n.toNat) ∧
    (∀ wider : UintWidth, width.bits ≤ wider.bits → ∀ text n, readUint width text = .ok n ↔
      readUint wider text = .ok (n.setWidth wider.bits)) ∧
    (∀ n : BitVec width.bits, (Shape.uint width).ofTree d label (.string (Decimal.render n.toNat))
      = .ok (.uint width n)) ∧
    (∀ number v, (Shape.uint width).ofTree d label (.number number) = .ok v ↔
      d.acceptsNumbers = true ∧
        ∃ n : BitVec width.bits, v = .uint width n ∧ number = .natural n.toNat) ∧
    (∀ number : Number, number.Exact →
      ((∃ v, (Shape.uint width).ofTree d label (.number number) = .ok v) ↔
        d.acceptsNumbers = true ∧
          ∃ k, number = .natural k ∧ k < 2 ^ 64 ∧ k < 2 ^ width.bits)) ∧
    ∀ text t, Tree.OfText text t → t.Exact := by
  refine ⟨fun text v => ?_, fun text => ?_, fun _ _ => readUint_eq_ok_iff_parses,
    fun _ h _ _ => readUint_wider h, fun n => ?_, fun _ _ => ofTree_uint_number,
    fun _ => exists_ofTree_uint_number, fun _ _ => Tree.OfText.exact⟩
  · simp only [ofTree_uint_string, readUint_eq_ok_iff]
    exact exists_congr fun n => and_comm
  · rw [← exists_readUint_iff]
    simp only [ofTree_uint_string]
    exact ⟨fun ⟨_, n, hn, _⟩ => ⟨n, hn⟩, fun ⟨n, hn⟩ => ⟨_, n, hn, rfl⟩⟩
  · exact ofTree_uint_string.2 ⟨n, readUint_render_iff.2 rfl, rfl⟩

/-- The greatest number of eight bits behind zeros, and bare, and the number after it. -/
theorem ofTree_uint_grammar_byte :
    (Shape.uint .u8).ofTree .yaml "index" (.string "00255") = .ok (.uint .u8 255#8) ∧
    readUint .u256 "00255" = .ok 255#256 ∧
    (¬ ∃ v, (Shape.uint .u8).ofTree .yaml "index" (.string "00256") = .ok v) ∧
    (Number.natural 255).Exact ∧
    (∃ v, (Shape.uint .u8).ofTree .yaml "index" (.number (.natural 255)) = .ok v) := by
  obtain ⟨htext, haccepts, -, hwider, -, -, hbare, -⟩ := ofTree_uint_grammar .yaml .u8 "index"
  have hexact : (Number.natural 255).Exact := show 255 < Number.bound by decide
  refine ⟨(htext _ _).2 ⟨255#8, rfl, by decide, by decide⟩, ?_, ?_, hexact, ?_⟩
  · exact (hwider .u256 (by decide) "00255" 255#8).1 (by decide)
  · rw [haccepts]
    decide
  · exact (hbare _ hexact).2 ⟨rfl, 255, rfl, by decide, by decide⟩

end Ssz
