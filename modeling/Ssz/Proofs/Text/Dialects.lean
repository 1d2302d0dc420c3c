-- SUMMARY: The dialects read a tree alike, but where a bare number stands for an integer.
import Ssz.Proofs.Failures

/-!
# Dialects

JSON asks for integers as strings; the other dialects take bare numbers as well.
That leniency is all there is between them. The run of the JSON reader and the run
of another one on the same tree end in the same way, unless the first stops at a
number that stands for an integer.
-/

namespace Ssz

open Text

/-- There is a number somewhere in the tree. -/
inductive Text.Tree.HasNumber : Tree → Prop
  | number (n : Number) : HasNumber (.number n)
  | item {items : List Tree} {t : Tree} : t ∈ items → HasNumber t → HasNumber (.array items)
  | entry {entries : List (String × Tree)} {key : String} {t : Tree} :
    (key, t) ∈ entries → HasNumber t → HasNumber (.object entries)

namespace TextError

/-- The same error, as the reader of another dialect words it. -/
def inDialect (d : Dialect) : TextError → TextError
  | .notWellFormed _ => .notWellFormed d
  | .misfit _ cause => .misfit d cause
  | e => e

theorem InField.inDialect {e : TextError} (h : e.InField) (d : Dialect) : e.inDialect d = e := by
  cases e with
  | notWellFormed dialect => exact h.elim
  | misfit dialect cause => exact h.elim
  | _ => rfl

/-- What the JSON reader says of a bare number where an integer should be. -/
def bareNumber (label : String) : TextError := .misfit .json (.wrongKind "string" label "number")

end TextError

/-! ## Two readers side by side -/

/-- A JSON run and a run in the dialect `d`: both succeed with the same result, or both fail with
    the same error, or the JSON run stops at a bare number, which there has to be. -/
inductive Agrees {α : Type} (d : Dialect) (bare : Prop) :
    Except TextError α → Except TextError α → Prop
  | ok (a : α) : Agrees d bare (.ok a) (.ok a)
  | error (e : TextError) : Agrees d bare (.error e) (.error (e.inDialect d))
  | bare (h : bare) (label : String) (run : Except TextError α) :
    Agrees d bare (.error (.bareNumber label)) run

namespace Agrees

variable {α β : Type} {d : Dialect} {bare : Prop} {x y : Except TextError α}

theorem refl (h : FailsWith TextError.InField x) : Agrees d bare x x := by
  cases x with
  | ok a => exact .ok a
  | error e =>
    have hagrees : Agrees d bare (.error e : Except TextError α) (.error (e.inDialect d)) :=
      .error e
    rwa [(h e rfl).inDialect] at hagrees

theorem imp {other : Prop} (h : Agrees d bare x y) (himp : bare → other) : Agrees d other x y := by
  cases h with
  | ok a => exact .ok a
  | error e => exact .error e
  | bare h label => exact .bare (himp h) label y

theorem bind {f g : α → Except TextError β} (h : Agrees d bare x y)
    (hf : ∀ a, x = .ok a → Agrees d bare (f a) (g a)) : Agrees d bare (x >>= f) (y >>= g) := by
  cases h with
  | ok a => exact hf a rfl
  | error e => exact .error e
  | bare h label => exact .bare h label _

theorem mapM {f g : α → Except TextError β} {xs : List α}
    (h : ∀ x ∈ xs, Agrees d bare (f x) (g x)) : Agrees d bare (xs.mapM f) (xs.mapM g) := by
  induction xs with
  | nil => exact .ok []
  | cons x xs ih =>
    rw [List.mapM_cons, List.mapM_cons]
    have htail := ih fun other hother => h other (List.mem_cons_of_mem _ hother)
    exact (h x List.mem_cons_self).bind fun _ _ => htail.bind fun _ _ => .ok _

/-- What the JSON reader accepts is accepted. -/
theorem of_ok {a : α} (h : Agrees d bare (.ok a) y) : y = .ok a := by
  cases h
  rfl

/-- Without a bare number only the name of the dialect can tell the runs apart. -/
theorem eq_mapError (h : Agrees d bare x y) (hbare : ¬ bare) : y = x.mapError (·.inDialect d) := by
  cases h with
  | ok a => rfl
  | error e => rfl
  | bare h => exact absurd h hbare

end Agrees

section Parts

variable {d : Dialect} {label : String}

theorem uintOf_agrees (width : UintWidth) (t : Tree) :
    Agrees d t.HasNumber (uintOf .json width label t) (uintOf d width label t) := by
  cases t with
  | string s => exact .refl (inField_failsWith _)
  | number n => exact .bare (.number n) label _
  | _ => exact .error _

theorem bytesOf_agrees (t : Tree) :
    Agrees d t.HasNumber (bytesOf .json label t) (bytesOf d label t) := by
  cases t with
  | string s =>
    simp only [bytesOf]
    split
    · exact .ok _
    · exact .error _
  | _ => exact .error _

theorem itemsOf_agrees (t : Tree) :
    Agrees d t.HasNumber (itemsOf .json label t) (itemsOf d label t) := by
  cases t with
  | array items => exact .ok items
  | _ => exact .error _

theorem entriesOf_agrees (t : Tree) :
    Agrees d t.HasNumber (entriesOf .json label t) (entriesOf d label t) := by
  cases t with
  | object entries => exact .ok entries
  | _ => exact .error _

end Parts

namespace Shape

variable {d : Dialect}

theorem items_agrees {strict lenient : Tree → Except TextError Value} (items : List Tree)
    (h : ∀ t, Agrees d t.HasNumber (strict t) (lenient t)) :
    Agrees d (Tree.array items).HasNumber (items.mapM strict) (items.mapM lenient) :=
  Agrees.mapM fun item hitem => (h item).imp (.item hitem)

theorem readChoice_agrees {bare : Prop} (selector : UInt8) (label : String)
    (choice : Option (Option Shape)) (entry : Option Tree)
    (h : ∀ shape t, choice = some (some shape) → entry = some t →
      Agrees d bare (shape.ofTree .json label t) (shape.ofTree d label t)) :
    Agrees d bare (readChoice .json selector label entry choice)
      (readChoice d selector label entry choice) := by
  match choice with
  | none => exact .error _
  | some (some shape) =>
    apply (Agrees.refl (present_failsWith entry)).bind
    intro t ht
    exact (h shape t rfl (present_eq_ok.1 ht).1).bind fun v _ => .ok (some v)
  | some none =>
    simp only [readChoice]
    split
    · exact .error _
    · split
      · exact .ok none
      · exact .ok none
      · exact .error _

theorem ofTree_agrees (shape : Shape) (label : String) (t : Tree) :
    Agrees d t.HasNumber (shape.ofTree .json label t) (shape.ofTree d label t) := by
  induction shape generalizing label t with
  | bool =>
    cases t with
    | bool b => exact .ok _
    | _ => exact .error _
  | uint width => exact (uintOf_agrees width t).bind fun n _ => .ok _
  | byteVector length =>
    apply (bytesOf_agrees t).bind
    exact fun bytes _ => (Agrees.refl (exactly_failsWith _ _)).bind fun _ _ => .ok _
  | byteList max =>
    apply (bytesOf_agrees t).bind
    exact fun bytes _ => (Agrees.refl (atMost_failsWith _ _)).bind fun _ _ => .ok _
  | bitVector length =>
    apply (bytesOf_agrees t).bind
    intro bytes _
    apply (Agrees.refl (exactly_failsWith _ _)).bind
    exact fun _ _ => (Agrees.refl (bitVectorOf_failsWith _ _)).bind fun bits _ => .ok _
  | bitList max =>
    apply (bytesOf_agrees t).bind
    exact fun bytes _ => (Agrees.refl (bitListOf_failsWith _ _)).bind fun bits _ => .ok _
  | vector element length ih =>
    apply (itemsOf_agrees t).bind
    intro items hitems
    rw [itemsOf_eq_ok.1 hitems]
    apply (Agrees.refl (exactly_failsWith _ _)).bind
    intro _ _
    exact (items_agrees items (ih label)).bind fun values _ => .ok _
  | list element max ih =>
    apply (itemsOf_agrees t).bind
    intro items hitems
    rw [itemsOf_eq_ok.1 hitems]
    apply (Agrees.refl (atMost_failsWith _ _)).bind
    intro _ _
    exact (items_agrees items (ih label)).bind fun values _ => .ok _
  | container name fields ih =>
    apply (entriesOf_agrees t).bind
    intro entries hentries
    rw [entriesOf_eq_ok.1 hentries, fieldsOfEntries_eq_mapM, fieldsOfEntries_eq_mapM]
    have hfields : Agrees d (Tree.object entries).HasNumber
        (fields.mapM (readField .json entries)) (fields.mapM (readField d entries)) := by
      apply Agrees.mapM
      intro field hfield
      apply (Agrees.refl (present_failsWith _)).bind
      intro u hu
      have hmem := Tree.mem_of_lookup (present_eq_ok.1 hu).1
      exact (ih field hfield field.label u).imp (.entry hmem)
    exact hfields.bind fun values _ => .ok _
  | union alternatives ih =>
    apply (entriesOf_agrees t).bind
    intro entries hentries
    rw [entriesOf_eq_ok.1 hentries]
    apply (Agrees.refl (present_failsWith _)).bind
    intro s hs
    have hselector := Tree.mem_of_lookup (present_eq_ok.1 hs).1
    apply ((uintOf_agrees .u8 s).imp (.entry hselector)).bind
    intro selector _
    rw [chosenOfEntry_eq, chosenOfEntry_eq]
    have hpayload := readChoice_agrees ⟨selector⟩ label alternatives[selector.toNat]?
      (entries.lookup valueKey) fun shape u hshape hu =>
        (ih shape (List.mem_of_getElem? hshape) label u).imp
          (Tree.HasNumber.entry (Tree.mem_of_lookup hu))
    exact hpayload.bind fun inner _ => .ok _

end Shape

end Ssz
