-- SUMMARY: A whole number in the tree of a text fits 64 bits.
import Ssz.Proofs.Text.Nesting
import Ssz.Text.Codec

/-!
# Exact numbers

A number of a text tree may be any number as far as its type goes. The trees that are
read from texts hold fewer: the JSON parser keeps a whole number exact only as long as
its digits fit 64 bits, and YAML gives no value to an integer that does not. Both are
followed here from the digits up to the tree of a text.
-/

namespace Ssz.Text

/-- A number as trees hold it: a whole number fits 64 bits, with its sign. -/
def Number.Exact : Number → Prop
  | .natural n => n < Number.bound
  | .negative n => 0 < n ∧ n ≤ Number.maxNegative
  | .float _ => True

/-- All numbers of a tree are exact. -/
inductive Tree.Exact : Tree → Prop
  | null : Exact .null
  | bool (b : Bool) : Exact (.bool b)
  | number {n : Number} : n.Exact → Exact (.number n)
  | string (s : String) : Exact (.string s)
  | array {items : List Tree} : (∀ t ∈ items, Exact t) → Exact (.array items)
  | object {entries : List (String × Tree)} : (∀ entry ∈ entries, Exact entry.2) →
    Exact (.object entries)

theorem Tree.Exact.ofEntries {entries : List (String × Tree)}
    (h : ∀ entry ∈ entries, entry.2.Exact) : (Tree.object (ofEntries entries)).Exact :=
  .object fun entry hentry => h entry (mem_of_mem_ofEntries hentry)

/-! ## Numbers of JSON -/

section Json

open Json Json.Numeral

theorem significand_lt {n : Nat} (hn : n < Number.bound) (count : Nat) (text : List Char) :
    (significand n count text).1 < Number.bound := by
  induction text generalizing n count with
  | nil => exact hn
  | cons c cs ih =>
    unfold significand
    split
    · exact hn
    · split
      case isTrue hlt => exact ih hlt _
      case isFalse => exact hn

variable {negative : Bool} {n : Nat} {power : Int} {text rest : List Char} {number : Number}

theorem exact_of_float (h : Numeral.float negative n power = .ok number) : number.Exact := by
  unfold Numeral.float at h
  split at h
  · cases h
    exact trivial
  · cases h

theorem exact_of_whole (hn : n < Number.bound) (h : whole negative n = .ok number) :
    number.Exact := by
  unfold whole at h
  split at h
  · cases h
    exact hn
  · split at h
    case isTrue hmin =>
      cases h
      exact hmin
    case isFalse => exact exact_of_float h

theorem exact_of_exponent (h : exponent negative n power text = .ok (number, rest)) :
    number.Exact := by
  unfold exponent at h
  split at h <;> simp only [bind_eq_ok, pure_eq_ok, Prod.mk.injEq] at h
  · obtain ⟨-, -, _, hfloat, rfl, -⟩ := h
    exact exact_of_float hfloat
  · obtain ⟨-, -, _, hfloat, rfl, -⟩ := h
    exact exact_of_float hfloat
  · obtain ⟨_, hfloat, rfl, -⟩ := h
    exact exact_of_float hfloat

theorem exact_of_fraction (h : fraction negative n power text = .ok (number, rest)) :
    number.Exact := by
  unfold fraction at h
  simp only [bind_eq_ok] at h
  obtain ⟨-, -, hexponent⟩ := h
  exact exact_of_exponent hexponent

theorem exact_of_unsigned (h : Numeral.unsigned negative text = .ok (number, rest)) :
    number.Exact := by
  have hlt := significand_lt (n := 0) (by decide) 0 text
  simp only [Numeral.unsigned, bind_eq_ok, ite_throw_eq_ok] at h
  obtain ⟨-, -, -, h⟩ := h
  split at h
  · exact exact_of_fraction h
  · exact exact_of_exponent h
  · exact exact_of_exponent h
  · split at h <;> simp only [bind_eq_ok, pure_eq_ok, Prod.mk.injEq] at h
    · obtain ⟨_, hwhole, rfl, -⟩ := h
      exact exact_of_whole hlt hwhole
    · obtain ⟨_, hfloat, rfl, -⟩ := h
      exact exact_of_float hfloat

theorem exact_of_readNumber (h : readNumber text = .ok (number, rest)) : number.Exact := by
  unfold readNumber at h
  split at h <;> exact exact_of_unsigned h

end Json

/-! ## Numbers of YAML -/

section Yaml

open Yaml.Core

variable {text : List Char} {number : Number}

theorem exact_of_ofInt? {i : Int} (h : ofInt? i = some (.number number)) : number.Exact := by
  unfold ofInt? at h
  split at h
  · split at h
    case isTrue hlt =>
      cases h
      simp only [Number.Exact]
      omega
    case isFalse => cases h
  · split at h
    case isTrue hmin =>
      cases h
      exact ⟨by omega, hmin⟩
    case isFalse => cases h

theorem exact_of_float? (h : Yaml.Core.float? text = some (.number number)) : number.Exact := by
  unfold Yaml.Core.float? at h
  split at h
  · cases h
  · split at h
    · cases h
    · split at h
      · cases h
      · obtain ⟨x, -, hx⟩ := Option.map_eq_some_iff.1 h
        cases hx
        exact trivial

theorem exact_of_resolve (h : resolve text = some (.number number)) : number.Exact := by
  unfold resolve at h
  split at h
  · cases h
  · split at h
    · cases h
    · split at h
      · exact exact_of_ofInt? h
      · rw [Option.some.injEq, Option.getD_eq_iff] at h
        obtain h | ⟨-, hstring⟩ := h
        · split at h
          · cases h
          · exact exact_of_float? h
        · cases hstring

theorem exact_of_resolveTagged {tag : String} (h : resolveTagged tag text = some (.number number)) :
    number.Exact := by
  unfold resolveTagged at h
  split at h
  · split at h <;> cases h
  · obtain ⟨b, -, hb⟩ := Option.map_eq_some_iff.1 h
    cases hb
  · obtain ⟨i, -, hi⟩ := Option.bind_eq_some_iff.1 h
    exact exact_of_ofInt? hi
  · exact exact_of_float? h
  · cases h

end Yaml

/-! ## JSON texts -/

theorem Json.inherited_exact : Json.Inherited fun _ t => t.Exact where
  null _ := .null
  bool _ := .bool
  string _ := .string
  number _ _ _ _ hread := .number (exact_of_readNumber hread)
  array _ _ := .array
  object _ _ := .ofEntries

theorem exact_of_treeOfJson {text : List Char} {t : Tree} (h : treeOfJson text = .ok t) :
    t.Exact := Json.inherited_exact.of_treeOfJson h

/-! ## YAML texts -/

namespace Yaml

variable {tag : Option Bytes} {style : Style} {text : List Char} {d : Datum} {t : Tree}

theorem exact_of_ofScalar? {number : Number}
    (h : Datum.ofScalar? tag style text = some (.number number)) : number.Exact := by
  have huntagged (h : Datum.ofUntagged? style text = some (.number number)) : number.Exact := by
    cases style with
    | plain => exact exact_of_resolve h
    | quoted => cases h
  unfold Datum.ofScalar? at h
  split at h
  · exact huntagged h
  · split at h
    · exact huntagged h
    · exact exact_of_resolveTagged h

theorem exact_of_plainTreeOfScalar {s : Scalar}
    (hs : ∀ number, s = .number number → number.Exact) : (Node.plainTreeOfScalar s).Exact := by
  cases s with
  | number number => exact .number (hs number rfl)
  | null | special => exact .null
  | bool => exact .bool _
  | string => exact .string _

/-- The two ways to a tree differ in the numbers that are not finite. -/
theorem eq_plainTreeOfScalar {s : Scalar} (h : Datum.treeOfScalar s = .ok t) :
    t = Node.plainTreeOfScalar s := by
  cases s <;> cases h <;> rfl

theorem toTree_withTag : (Datum.withTag tag d).toTree = d.toTree := by
  unfold Datum.withTag
  split
  · split <;> rfl
  · rfl

mutual

/-- Tags are dropped again, so the tree of a node has the numbers of its scalars. -/
theorem exact_of_ofNode? : (node : Node) → ∀ {d : Datum} {t : Tree},
    Datum.ofNode? node = some d → d.toTree = .ok t → t.Exact
  | .scalar tag style text, d, t, hd, ht => by
    rw [Datum.ofNode?, Option.map_eq_some_iff] at hd
    obtain ⟨s, hs, rfl⟩ := hd
    rw [toTree_withTag, Datum.toTree] at ht
    obtain rfl := eq_plainTreeOfScalar ht
    exact exact_of_plainTreeOfScalar fun number hnumber => exact_of_ofScalar? (hnumber ▸ hs)
  | .sequence tag items, d, t, hd, ht => by
    simp only [Datum.ofNode?, Option.bind_eq_bind, Option.bind_eq_some_iff, Option.pure_def,
      Option.some.injEq] at hd
    obtain ⟨ds, hds, rfl⟩ := hd
    simp only [toTree_withTag, Datum.toTree, bind_eq_ok, pure_eq_ok] at ht
    obtain ⟨ts, hts, rfl⟩ := ht
    exact .array (exact_of_ofItems? items hds hts)
  | .mapping tag entries, d, t, hd, ht => by
    simp only [Datum.ofNode?, Option.bind_eq_bind, Option.bind_eq_some_iff,
      Option.ite_none_right_eq_some, Option.pure_def, Option.some.injEq] at hd
    obtain ⟨ds, hds, -, rfl⟩ := hd
    simp only [toTree_withTag, Datum.toTree, bind_eq_ok, pure_eq_ok] at ht
    obtain ⟨ts, hts, rfl⟩ := ht
    exact .ofEntries (exact_of_ofEntries? entries hds hts)
termination_by structural node => node

theorem exact_of_ofItems? : (nodes : List Node) → ∀ {ds : List Datum} {ts : List Tree},
    Datum.ofItems? nodes = some ds → Datum.toTrees ds = .ok ts → ∀ t ∈ ts, t.Exact
  | [], ds, ts, hds, hts => by
    cases hds
    cases hts
    exact List.forall_mem_nil _
  | node :: nodes, ds, ts, hds, hts => by
    simp only [Datum.ofItems?, Option.bind_eq_bind, Option.bind_eq_some_iff, Option.pure_def,
      Option.some.injEq] at hds
    obtain ⟨d, hd, ds, hds, rfl⟩ := hds
    simp only [Datum.toTrees, bind_eq_ok, pure_eq_ok] at hts
    obtain ⟨t, ht, ts, hts, rfl⟩ := hts
    exact List.forall_mem_cons.2 ⟨exact_of_ofNode? node hd ht, exact_of_ofItems? nodes hds hts⟩
termination_by structural nodes => nodes

theorem exact_of_ofEntries? : (entries : List (Node × Node)) →
    ∀ {ds : List (Datum × Datum)} {ts : List (String × Tree)},
      Datum.ofEntries? entries = some ds → Datum.toEntries ds = .ok ts →
        ∀ entry ∈ ts, entry.2.Exact
  | [], ds, ts, hds, hts => by
    cases hds
    cases hts
    exact List.forall_mem_nil _
  | (key, value) :: entries, ds, ts, hds, hts => by
    simp only [Datum.ofEntries?, Option.bind_eq_bind, Option.bind_eq_some_iff, Option.pure_def,
      Option.some.injEq] at hds
    obtain ⟨k, -, d, hd, ds, hds, rfl⟩ := hds
    unfold Datum.toEntries at hts
    split at hts
    · simp only [bind_eq_ok, pure_eq_ok] at hts
      obtain ⟨t, ht, ts, hts, rfl⟩ := hts
      exact List.forall_mem_cons.2
        ⟨exact_of_ofNode? value hd ht, exact_of_ofEntries? entries hds hts⟩
    · cases hts
termination_by structural entries => entries

end

mutual

/-- The same of the trees that know no tags. -/
theorem exact_of_toTree? : (node : Node) → ∀ {t : Tree}, node.toTree? = some t → t.Exact
  | .scalar tag style text, t, h => by
    simp only [Node.toTree?, Option.ite_none_left_eq_some, Option.map_eq_some_iff] at h
    obtain ⟨-, s, hs, rfl⟩ := h
    exact exact_of_plainTreeOfScalar fun number hnumber => exact_of_ofScalar? (hnumber ▸ hs)
  | .sequence tag items, t, h => by
    simp only [Node.toTree?, Option.ite_none_left_eq_some, Option.map_eq_some_iff] at h
    obtain ⟨-, ts, hts, rfl⟩ := h
    exact .array (exact_of_toTrees? items hts)
  | .mapping tag entries, t, h => by
    simp only [Node.toTree?, Option.ite_none_left_eq_some, Option.map_eq_some_iff] at h
    obtain ⟨-, ts, hts, rfl⟩ := h
    exact .ofEntries (exact_of_toEntries? entries hts)
termination_by structural node => node

theorem exact_of_toTrees? : (nodes : List Node) → ∀ {ts : List Tree},
    Node.toTrees? nodes = some ts → ∀ t ∈ ts, t.Exact
  | [], ts, h => by
    cases h
    exact List.forall_mem_nil _
  | node :: nodes, ts, h => by
    simp only [Node.toTrees?, Option.bind_eq_bind, Option.bind_eq_some_iff, Option.pure_def,
      Option.some.injEq] at h
    obtain ⟨t, ht, ts, hts, rfl⟩ := h
    exact List.forall_mem_cons.2 ⟨exact_of_toTree? node ht, exact_of_toTrees? nodes hts⟩
termination_by structural nodes => nodes

theorem exact_of_toEntries? : (entries : List (Node × Node)) → ∀ {ts : List (String × Tree)},
    Node.toEntries? entries = some ts → ∀ entry ∈ ts, entry.2.Exact
  | [], ts, h => by
    cases h
    exact List.forall_mem_nil _
  | (key, value) :: entries, ts, h => by
    unfold Node.toEntries? at h
    split at h
    · simp only [Option.bind_eq_bind, Option.bind_eq_some_iff, Option.pure_def,
        Option.some.injEq] at h
      obtain ⟨t, ht, ts, hts, rfl⟩ := h
      exact List.forall_mem_cons.2 ⟨exact_of_toTree? value ht, exact_of_toEntries? entries hts⟩
    · cases h
termination_by structural entries => entries

end

end Yaml

theorem exact_of_treeOfYaml {text : List Char} {t : Tree} (h : treeOfYaml text = .ok t) :
    t.Exact := by
  unfold treeOfYaml at h
  split at h
  · cases h
  · split at h
    · cases h
    · cases h
    · split at h
      · cases h
      · rename_i hd
        split at h
        · cases h
        · split at h
          · rename_i ht
            cases h
            exact Yaml.exact_of_ofNode? _ hd ht
          · cases h

theorem exact_of_plainTreeOfYaml {text : List Char} {t : Tree}
    (h : plainTreeOfYaml text = some t) : t.Exact := by
  unfold plainTreeOfYaml at h
  split at h
  · cases h
  · cases h
    exact .null
  · exact Yaml.exact_of_toTree? _ h

/-- The text can be read as the tree, as a text of one of the formats. -/
inductive Tree.OfText (text : List Char) (t : Tree) : Prop
  | json : treeOfJson text = .ok t → OfText text t
  | yaml : treeOfYaml text = .ok t → OfText text t
  | plainYaml : plainTreeOfYaml text = some t → OfText text t

theorem Tree.OfText.exact {text : List Char} {t : Tree} (h : Tree.OfText text t) : t.Exact := by
  cases h with
  | json h => exact exact_of_treeOfJson h
  | yaml h => exact exact_of_treeOfYaml h
  | plainYaml h => exact exact_of_plainTreeOfYaml h

end Ssz.Text
