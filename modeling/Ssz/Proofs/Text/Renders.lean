-- SUMMARY: The values of a shape and their text trees, and that every well-formed value has one.
import Ssz.Proofs.Shape
import Ssz.Proofs.WellFormed
import Ssz.Text.Render

/-!
# Rendered values

`shape.Renders v t` says that `v` is well-formed for `shape` and that `t` is its
text tree. The laws take a rendered value apart, shape by shape, and each of them
is an equivalence: read from right to left they say that a well-formed value is
always rendered.
-/

namespace Ssz

open Text (Tree)

/-- The tree is the text tree of the value, which is well-formed. -/
structure Shape.Renders (shape : Shape) (v : Value) (t : Tree) : Prop where
  check : shape.check v = .ok ()
  render : shape.render v = .ok t

theorem toTree_eq_ok {shape : Shape} {v : Value} {t : Tree} :
    toTree shape v = .ok t ↔ shape.Renders v t := by
  simp only [toTree, bind_eq_ok, exists_unit]
  constructor
  · rintro ⟨hcheck, hrender⟩
    exact ⟨hcheck, hrender⟩
  · intro h
    exact ⟨h.check, h.render⟩

namespace Shape

/-! ## Scalars and packed contents -/

theorem renders_bool {v : Value} {t : Tree} :
    Renders .bool v t ↔ ∃ b, v = .bool b ∧ t = .bool b := by
  constructor
  · rintro ⟨hcheck, hrender⟩
    obtain ⟨b, rfl⟩ := check_bool.1 hcheck
    cases hrender
    exact ⟨b, rfl, rfl⟩
  · rintro ⟨b, rfl, rfl⟩
    exact ⟨check_bool.2 ⟨b, rfl⟩, rfl⟩

theorem renders_uint {width : UintWidth} {v : Value} {t : Tree} :
    Renders (.uint width) v t ↔
      ∃ n, v = .uint width n ∧ t = .string (Decimal.render n.toNat) := by
  constructor
  · rintro ⟨hcheck, hrender⟩
    obtain ⟨n, rfl⟩ := check_uint.1 hcheck
    cases hrender
    exact ⟨n, rfl, rfl⟩
  · rintro ⟨n, rfl, rfl⟩
    exact ⟨check_uint.2 ⟨n, rfl⟩, rfl⟩

theorem renders_byteVector {length : Nat} {v : Value} {t : Tree} :
    Renders (.byteVector length) v t ↔
      ∃ contents, v = .bytes contents ∧ contents.length = length ∧
        t = .string (Hex.renderMarked contents) := by
  constructor
  · rintro ⟨hcheck, hrender⟩
    obtain ⟨contents, rfl, hlength⟩ := check_byteVector.1 hcheck
    cases hrender
    exact ⟨contents, rfl, hlength, rfl⟩
  · rintro ⟨contents, rfl, hlength, rfl⟩
    exact ⟨check_byteVector.2 ⟨contents, rfl, hlength⟩, rfl⟩

theorem renders_byteList {max : Nat} {v : Value} {t : Tree} :
    Renders (.byteList max) v t ↔
      ∃ contents, v = .bytes contents ∧ contents.length ≤ max ∧
        t = .string (Hex.renderMarked contents) := by
  constructor
  · rintro ⟨hcheck, hrender⟩
    obtain ⟨contents, rfl, hmax⟩ := check_byteList.1 hcheck
    cases hrender
    exact ⟨contents, rfl, hmax, rfl⟩
  · rintro ⟨contents, rfl, hmax, rfl⟩
    exact ⟨check_byteList.2 ⟨contents, rfl, hmax⟩, rfl⟩

theorem renders_bitVector {length : Nat} {v : Value} {t : Tree} :
    Renders (.bitVector length) v t ↔
      ∃ bits, v = .bits bits ∧ bits.length = length ∧
        t = .string (Hex.renderMarked bits.bytes) := by
  constructor
  · rintro ⟨hcheck, hrender⟩
    obtain ⟨bits, rfl, hlength⟩ := check_bitVector.1 hcheck
    cases hrender
    exact ⟨bits, rfl, hlength, rfl⟩
  · rintro ⟨bits, rfl, hlength, rfl⟩
    exact ⟨check_bitVector.2 ⟨bits, rfl, hlength⟩, rfl⟩

theorem renders_bitList {max : Nat} {v : Value} {t : Tree} :
    Renders (.bitList max) v t ↔
      ∃ bits, v = .bits bits ∧ bits.length ≤ max ∧
        t = .string (Hex.renderMarked bits.toWire) := by
  constructor
  · rintro ⟨hcheck, hrender⟩
    obtain ⟨bits, rfl, hmax⟩ := check_bitList.1 hcheck
    cases hrender
    exact ⟨bits, rfl, hmax, rfl⟩
  · rintro ⟨bits, rfl, hmax, rfl⟩
    exact ⟨check_bitList.2 ⟨bits, rfl, hmax⟩, rfl⟩

/-! ## Sequences -/

theorem forall₂_renders {element : Shape} {items : List Value} {trees : List Tree} :
    List.Forall₂ element.Renders items trees ↔
      (∀ item ∈ items, element.check item = .ok ()) ∧
        List.Forall₂ (fun item t => element.render item = .ok t) items trees := by
  rw [← List.forall₂_and_left]
  constructor
  · intro h
    exact h.imp fun _ _ hrenders => ⟨hrenders.check, hrenders.render⟩
  · intro h
    exact h.imp fun _ _ hrenders => ⟨hrenders.1, hrenders.2⟩

theorem renders_vector {element : Shape} {length : Nat} {v : Value} {t : Tree} :
    (vector element length).Renders v t ↔
      ∃ items trees, v = .list items ∧ items.length = length ∧
        List.Forall₂ element.Renders items trees ∧ t = .array trees := by
  constructor
  · rintro ⟨hcheck, hrender⟩
    obtain ⟨items, rfl, hlength, hitems⟩ := check_vector.1 hcheck
    simp only [render, bind_eq_ok, pure_eq_ok, mapM_eq_ok] at hrender
    obtain ⟨trees, htrees, rfl⟩ := hrender
    exact ⟨items, trees, rfl, hlength, forall₂_renders.2 ⟨hitems, htrees⟩, rfl⟩
  · rintro ⟨items, trees, rfl, hlength, hrenders, rfl⟩
    obtain ⟨hitems, htrees⟩ := forall₂_renders.1 hrenders
    refine ⟨check_vector.2 ⟨items, rfl, hlength, hitems⟩, ?_⟩
    simp only [render, bind_eq_ok, pure_eq_ok, mapM_eq_ok]
    exact ⟨trees, htrees, rfl⟩

theorem renders_list {element : Shape} {max : Nat} {v : Value} {t : Tree} :
    (list element max).Renders v t ↔
      ∃ items trees, v = .list items ∧ items.length ≤ max ∧
        List.Forall₂ element.Renders items trees ∧ t = .array trees := by
  constructor
  · rintro ⟨hcheck, hrender⟩
    obtain ⟨items, rfl, hmax, hitems⟩ := check_list.1 hcheck
    simp only [render, bind_eq_ok, pure_eq_ok, mapM_eq_ok] at hrender
    obtain ⟨trees, htrees, rfl⟩ := hrender
    exact ⟨items, trees, rfl, hmax, forall₂_renders.2 ⟨hitems, htrees⟩, rfl⟩
  · rintro ⟨items, trees, rfl, hmax, hrenders, rfl⟩
    obtain ⟨hitems, htrees⟩ := forall₂_renders.1 hrenders
    refine ⟨check_list.2 ⟨items, rfl, hmax, hitems⟩, ?_⟩
    simp only [render, bind_eq_ok, pure_eq_ok, mapM_eq_ok]
    exact ⟨trees, htrees, rfl⟩

/-! ## Records -/

/-- The entries are the names of the fields with the trees of their values. -/
inductive RendersFields : List (Field Shape) → List Value → List (String × Tree) → Prop
  | nil : RendersFields [] [] []
  | cons {field fields v values t entries} : field.shape.Renders v t →
      RendersFields fields values entries →
      RendersFields (field :: fields) (v :: values) ((field.name, t) :: entries)

theorem rendersFields_iff {fields : List (Field Shape)} {values : List Value}
    {entries : List (String × Tree)} :
    RendersFields fields values entries ↔
      List.Forall₂ (fun field v => field.shape.check v = .ok ()) fields values ∧
        renderFields fields values = .ok entries := by
  constructor
  · intro h
    induction h with
    | nil => exact ⟨.nil, rfl⟩
    | cons hrenders _ ih =>
      refine ⟨.cons hrenders.check ih.1, ?_⟩
      simp only [renderFields, bind_eq_ok, pure_eq_ok]
      exact ⟨_, hrenders.render, _, ih.2, rfl⟩
  · rintro ⟨hcheck, hrender⟩
    induction hcheck generalizing entries with
    | nil =>
      cases hrender
      exact .nil
    | cons hcheck _ ih =>
      simp only [renderFields, bind_eq_ok, pure_eq_ok] at hrender
      obtain ⟨t, ht, rest, hrest, rfl⟩ := hrender
      exact .cons ⟨hcheck, ht⟩ (ih hrest)

theorem renders_container {name : String} {fields : List (Field Shape)} {v : Value} {t : Tree} :
    (container name fields).Renders v t ↔
      ∃ values entries, v = .container values ∧ RendersFields fields values entries ∧
        t = .object (Tree.ofEntries entries) := by
  constructor
  · rintro ⟨hcheck, hrender⟩
    obtain ⟨values, rfl, hvalues⟩ := check_container.1 hcheck
    simp only [render, bind_eq_ok, pure_eq_ok] at hrender
    obtain ⟨entries, hentries, rfl⟩ := hrender
    exact ⟨values, entries, rfl, rendersFields_iff.2 ⟨hvalues, hentries⟩, rfl⟩
  · rintro ⟨values, entries, rfl, hrenders, rfl⟩
    obtain ⟨hvalues, hentries⟩ := rendersFields_iff.1 hrenders
    refine ⟨check_container.2 ⟨values, rfl, hvalues⟩, ?_⟩
    simp only [render, bind_eq_ok, pure_eq_ok]
    exact ⟨entries, hentries, rfl⟩

/-! ## Unions -/

theorem renderChosen_none (alternatives : List (Option Shape)) (index : Nat) :
    renderChosen alternatives index none = .ok .null := by
  induction alternatives generalizing index with
  | nil => rfl
  | cons choice alternatives ih =>
    cases index with
    | zero => cases choice <;> rfl
    | succ index => cases choice <;> exact ih index

theorem renderChosen_some {alternatives : List (Option Shape)} {index : Nat} {shape : Shape}
    (hshape : alternatives[index]? = some (some shape)) (inner : Value) :
    renderChosen alternatives index (some inner) = shape.render inner := by
  refine chosen_induction hshape ?_ ?_
  · intro rest
    rfl
  · intro choice rest index ih
    cases choice <;> exact ih

/-- The tree of a union: its selector, and the tree of its payload. -/
def unionTree (selector : UInt8) (payload : Tree) : Tree :=
  .object [(Text.selectorKey, .string (Decimal.render selector.toNat)), (Text.valueKey, payload)]

theorem renders_union {alternatives : List (Option Shape)} {v : Value} {t : Tree} :
    (union alternatives).Renders v t ↔
      (v = .union 0 none ∧ alternatives[0]? = some none ∧ t = unionTree 0 .null) ∨
        ∃ selector shape inner payload, v = .union selector (some inner) ∧
          alternatives[selector.toNat]? = some (some shape) ∧ shape.Renders inner payload ∧
          t = unionTree selector payload := by
  constructor
  · rintro ⟨hcheck, hrender⟩
    obtain ⟨rfl, hnone⟩ | ⟨selector, shape, inner, rfl, hshape, hinner⟩ := check_union.1 hcheck
    · simp only [render, renderChosen_none, bind_eq_ok, pure_eq_ok, Except.ok.injEq,
        exists_eq_left'] at hrender
      exact .inl ⟨rfl, hnone, hrender.symm⟩
    · simp only [render, renderChosen_some hshape, bind_eq_ok, pure_eq_ok] at hrender
      obtain ⟨payload, hpayload, rfl⟩ := hrender
      exact .inr ⟨selector, shape, inner, payload, rfl, hshape, ⟨hinner, hpayload⟩, rfl⟩
  · rintro (⟨rfl, hnone, rfl⟩ | ⟨selector, shape, inner, payload, rfl, hshape, hrenders, rfl⟩)
    · refine ⟨check_union.2 (.inl ⟨rfl, hnone⟩), ?_⟩
      simp only [render, renderChosen_none]
      rfl
    · refine ⟨check_union.2 (.inr ⟨selector, shape, inner, rfl, hshape, hrenders.check⟩), ?_⟩
      simp only [render, renderChosen_some hshape, bind_eq_ok, pure_eq_ok]
      exact ⟨payload, hrenders.render, rfl⟩

/-! ## Every well-formed value is rendered -/

theorem exists_rendersFields {fields : List (Field Shape)} {values : List Value}
    (h : List.Forall₂ (fun field v => ∃ t, field.shape.Renders v t) fields values) :
    ∃ entries, RendersFields fields values entries := by
  induction h with
  | nil => exact ⟨[], .nil⟩
  | cons hrenders _ ih =>
    obtain ⟨t, ht⟩ := hrenders
    obtain ⟨entries, hentries⟩ := ih
    exact ⟨_, .cons ht hentries⟩

theorem exists_renders {shape : Shape} {v : Value} (hcheck : shape.check v = .ok ()) :
    ∃ t, shape.Renders v t := by
  induction shape generalizing v with
  | bool =>
    obtain ⟨b, rfl⟩ := check_bool.1 hcheck
    exact ⟨_, hcheck, rfl⟩
  | uint width =>
    obtain ⟨n, rfl⟩ := check_uint.1 hcheck
    exact ⟨_, hcheck, rfl⟩
  | byteVector length =>
    obtain ⟨contents, rfl, -⟩ := check_byteVector.1 hcheck
    exact ⟨_, hcheck, rfl⟩
  | byteList max =>
    obtain ⟨contents, rfl, -⟩ := check_byteList.1 hcheck
    exact ⟨_, hcheck, rfl⟩
  | bitVector length =>
    obtain ⟨bits, rfl, -⟩ := check_bitVector.1 hcheck
    exact ⟨_, hcheck, rfl⟩
  | bitList max =>
    obtain ⟨bits, rfl, -⟩ := check_bitList.1 hcheck
    exact ⟨_, hcheck, rfl⟩
  | vector element length ih =>
    obtain ⟨items, rfl, hlength, hitems⟩ := check_vector.1 hcheck
    obtain ⟨trees, htrees⟩ := exists_forall₂ fun item hitem => ih (hitems item hitem)
    exact ⟨_, renders_vector.2 ⟨items, trees, rfl, hlength, htrees, rfl⟩⟩
  | list element max ih =>
    obtain ⟨items, rfl, hmax, hitems⟩ := check_list.1 hcheck
    obtain ⟨trees, htrees⟩ := exists_forall₂ fun item hitem => ih (hitems item hitem)
    exact ⟨_, renders_list.2 ⟨items, trees, rfl, hmax, htrees, rfl⟩⟩
  | container name fields ih =>
    obtain ⟨values, rfl, hvalues⟩ := check_container.1 hcheck
    obtain ⟨entries, hentries⟩ := exists_rendersFields
      (forall₂_imp_of_mem hvalues fun field hfield v hv => ih field hfield hv)
    exact ⟨_, renders_container.2 ⟨values, entries, rfl, hentries, rfl⟩⟩
  | union alternatives ih =>
    obtain ⟨rfl, hnone⟩ | ⟨selector, shape, inner, rfl, hshape, hinner⟩ := check_union.1 hcheck
    · exact ⟨_, renders_union.2 (.inl ⟨rfl, hnone, rfl⟩)⟩
    · obtain ⟨payload, hpayload⟩ := ih shape (List.mem_of_getElem? hshape) hinner
      exact ⟨_, renders_union.2
        (.inr ⟨selector, shape, inner, payload, rfl, hshape, hpayload, rfl⟩)⟩

end Shape

end Ssz
