-- SUMMARY: A reader does not see the order of keys, nor entries whose key the shape does not name.
import Mathlib.Data.List.Perm.Basic
import Mathlib.Logic.Relation
import Ssz.Proofs.Text.Accepts
import Ssz.Proofs.Text.Tree
import Ssz.Text.Codec

/-!
# Edits that a reader does not see

The reader walks along the shape and looks entries up by their names. So the order
of the entries in an object is of no matter, and neither is what stands under a key
that the shape does not name there. An `Edit` is one such change somewhere in a
tree. The first law says that a single edit does not change what is read, faults
included, and the main one carries this over any number of edits.

Where a tree stands, it is read as a list of shapes. That list has one shape at the
top; it is empty where the shape says nothing of the tree, as behind a selector that
chooses no value, and it has several shapes where fields of one record share a name.
-/

namespace Ssz

open Text

namespace Shape

/-! ## What a shape names -/

/-- The keys that the shape looks up in an object. -/
def keys : Shape → List String
  | .container _ fields => fields.map Field.name
  | .union _ => [selectorKey, valueKey]
  | _ => []

/-- The shape of the items of an array, if there is one. -/
def itemShapes : Shape → List Shape
  | .vector element _ | .list element _ => [element]
  | _ => []

/-- The selector among the entries of a union, in any dialect that can read it. -/
def selector? (entries : List (String × Tree)) : Option (BitVec 8) :=
  (present selectorKey (entries.lookup selectorKey) >>= uintOf .tree .u8 selectorKey).toOption

/-- The shapes that the entry of a key is read as. The payload of a union is read as the alternative
    that the selector beside it chooses. -/
def entryShapes (entries : List (String × Tree)) (key : String) : Shape → List Shape
  | .container _ fields => (fields.filter (·.name = key)).map Field.shape
  | .union alternatives =>
    if key = valueKey then
      match selector? entries with
      | some selector => (alternatives[selector.toNat]?).join.toList
      | none => []
    else []
  | _ => []

end Shape

/-! ## Edits -/

/-- One change of a tree that is read as each of `shapes`: entries are permuted, entries that no
    shape names are exchanged for others, or the change is in an item or in an entry. -/
inductive Edit : (shapes : List Shape) → Tree → Tree → Prop
  | permute {shapes entries entries'} : (entries.map Prod.fst).Nodup → entries.Perm entries' →
      Edit shapes (.object entries) (.object entries')
  | exchange {shapes before old new after} :
      (∀ entry ∈ old ++ new, ∀ shape ∈ shapes, entry.1 ∉ shape.keys) →
      Edit shapes (.object (before ++ old ++ after)) (.object (before ++ new ++ after))
  | item {shapes before t u after} : Edit (shapes.flatMap Shape.itemShapes) t u →
      Edit shapes (.array (before ++ t :: after)) (.array (before ++ u :: after))
  | entry {shapes before key t u after} :
      Edit (shapes.flatMap (Shape.entryShapes (before ++ (key, t) :: after) key)) t u →
      Edit shapes (.object (before ++ (key, t) :: after)) (.object (before ++ (key, u) :: after))

namespace Text.Tree

/-! ## Lookup -/

theorem lookup_eq_some_iff {entries : List (String × Tree)} (h : (entries.map Prod.fst).Nodup)
    {key : String} {t : Tree} : entries.lookup key = some t ↔ (key, t) ∈ entries :=
  ⟨mem_of_lookup, lookup_of_mem h⟩

theorem lookup_perm {entries entries' : List (String × Tree)} (h : (entries.map Prod.fst).Nodup)
    (hperm : entries.Perm entries') (key : String) : entries.lookup key = entries'.lookup key := by
  have h' : (entries'.map Prod.fst).Nodup := (hperm.map Prod.fst).nodup_iff.1 h
  refine Option.ext fun t => ?_
  rw [lookup_eq_some_iff h, lookup_eq_some_iff h', hperm.mem_iff]

theorem lookup_eq_none {entries : List (String × Tree)} {key : String}
    (h : ∀ entry ∈ entries, entry.1 ≠ key) : entries.lookup key = none := by
  refine List.lookup_eq_none_iff.2 fun entry hentry => ?_
  exact bne_iff_ne.2 (h entry hentry).symm

/-- Entries of other keys do not matter to a look-up. -/
theorem lookup_exchange {before old new after : List (String × Tree)} {key : String}
    (h : ∀ entry ∈ old ++ new, entry.1 ≠ key) :
    (before ++ old ++ after).lookup key = (before ++ new ++ after).lookup key := by
  have hold := lookup_eq_none fun entry hentry => h entry (List.mem_append_left new hentry)
  have hnew := lookup_eq_none fun entry hentry => h entry (List.mem_append_right old hentry)
  simp only [List.lookup_append, hold, hnew]

end Text.Tree

/-! ## Entries that are read alike -/

/-- Both are arrays, or both are objects, as before and after an edit. -/
inductive Text.Tree.SameForm : Tree → Tree → Prop
  | array (items items' : List Tree) : SameForm (.array items) (.array items')
  | object (entries entries' : List (String × Tree)) : SameForm (.object entries) (.object entries')

theorem Edit.sameForm {shapes : List Shape} {t u : Tree} (h : Edit shapes t u) : t.SameForm u := by
  cases h with
  | permute | exchange | entry => exact .object _ _
  | item => exact .array _ _

/-- What two objects hold under a key is the same, or it is of one form and read alike as each of
    the shapes. -/
inductive EntryAlike (shapes : List Shape) : Option Tree → Option Tree → Prop
  | same (entry : Option Tree) : EntryAlike shapes entry entry
  | edited {t u : Tree} : t.SameForm u →
      (∀ shape ∈ shapes, ∀ d label, shape.ofTree d label t = shape.ofTree d label u) →
      EntryAlike shapes (some t) (some u)

section Readers

variable {d : Dialect} {label : String}

namespace EntryAlike

variable {shapes : List Shape} {entry entry' : Option Tree}

/-- The reader of a field finds both entries missing, or reads them alike. -/
theorem ofTree_present (h : EntryAlike shapes entry entry') {shape : Shape}
    (hshape : shape ∈ shapes) (name : String) :
    (present name entry >>= fun t => shape.ofTree d label t)
      = (present name entry' >>= fun t => shape.ofTree d label t) := by
  cases h with
  | same => rfl
  | edited hform hread => cases hform <;> exact hread shape hshape d label

theorem uintOf_present (h : EntryAlike shapes entry entry') (width : UintWidth) (name : String) :
    (present name entry >>= uintOf d width label)
      = (present name entry' >>= uintOf d width label) := by
  cases h with
  | same => rfl
  | edited hform => cases hform <;> rfl

theorem readChoice_eq (h : EntryAlike shapes entry entry') (selector : UInt8)
    {choice : Option (Option Shape)} (hchoice : ∀ shape, choice = some (some shape) →
      shape ∈ shapes) :
    Shape.readChoice d selector label entry choice
      = Shape.readChoice d selector label entry' choice := by
  match choice with
  | none => rfl
  | some none =>
    cases h with
    | same => rfl
    | edited hform => cases hform <;> rfl
  | some (some shape) =>
    have hread : (present label entry >>= fun t => shape.ofTree d label t)
        = (present label entry' >>= fun t => shape.ofTree d label t) :=
      h.ofTree_present (hchoice shape rfl) label
    simp only [Shape.readChoice, ← bind_assoc, hread]

end EntryAlike

end Readers

/-! ## Edits are not seen -/

namespace Shape

variable {d : Dialect} {label : String}

theorem mem_entryShapes_field {name : String} {fields : List (Field Shape)} {field : Field Shape}
    (hfield : field ∈ fields) (entries : List (String × Tree)) :
    field.shape ∈ (container name fields).entryShapes entries field.name := by
  refine List.mem_map_of_mem (List.mem_filter.2 ⟨hfield, ?_⟩)
  exact decide_eq_true rfl

/-- The dialect that takes all spellings of a number reads what any dialect reads. -/
theorem uintOf_tree {width : UintWidth} {t : Tree} {n : BitVec width.bits}
    (h : uintOf d width label t = .ok n) : uintOf .tree width label t = .ok n := by
  cases t with
  | number k =>
    simp only [uintOf] at h
    split at h
    · exact h
    · cases h
  | string s => exact h
  | _ => cases h

theorem mem_entryShapes_payload {alternatives : List (Option Shape)} {shape : Shape}
    {entries : List (String × Tree)} {selector : BitVec 8}
    (hselector : (present selectorKey (entries.lookup selectorKey) >>= uintOf d .u8 selectorKey)
      = .ok selector) (hshape : alternatives[selector.toNat]? = some (some shape)) :
    shape ∈ (union alternatives).entryShapes entries valueKey := by
  have hread : selector? entries = some selector := by
    obtain ⟨t, ht, hn⟩ := bind_eq_ok.1 hselector
    have hlenient := bind_eq_ok.2 ⟨t, ht, uintOf_tree hn⟩
    rw [selector?, hlenient]
    rfl
  simp only [entryShapes, if_pos, hread, hshape]
  exact List.mem_singleton.2 rfl

/-- An object is read by what it holds under the keys that the shape names. -/
theorem ofTree_object_eq {shape : Shape} {entries entries' : List (String × Tree)}
    (h : ∀ key ∈ shape.keys,
      EntryAlike (shape.entryShapes entries key) (entries.lookup key) (entries'.lookup key)) :
    shape.ofTree d label (.object entries) = shape.ofTree d label (.object entries') := by
  cases shape with
  | container name fields =>
    have hfields : fieldsOfEntries d fields entries = fieldsOfEntries d fields entries' := by
      rw [fieldsOfEntries_eq_mapM, fieldsOfEntries_eq_mapM]
      apply mapM_congr
      intro field hfield
      have halike := h field.name (List.mem_map_of_mem hfield)
      exact halike.ofTree_present (mem_entryShapes_field hfield entries) field.label
    have hopen (all : List (String × Tree)) : (container name fields).ofTree d label (.object all)
        = Value.container <$> fieldsOfEntries d fields all := rfl
    rw [hopen, hopen, hfields]
  | union alternatives =>
    have hselector :
        (present selectorKey (entries.lookup selectorKey) >>= uintOf d .u8 selectorKey)
          = (present selectorKey (entries'.lookup selectorKey) >>= uintOf d .u8 selectorKey) :=
      (h selectorKey List.mem_cons_self).uintOf_present .u8 selectorKey
    have hpayload := h valueKey (List.mem_cons_of_mem _ List.mem_cons_self)
    have hopen (all : List (String × Tree)) : (union alternatives).ofTree d label (.object all)
        = (present selectorKey (all.lookup selectorKey) >>= uintOf d .u8 selectorKey) >>=
          fun selector => Value.union ⟨selector⟩ <$>
            chosenOfEntry d ⟨selector⟩ alternatives selector.toNat label (all.lookup valueKey) := by
      rw [bind_assoc]
      rfl
    rw [hopen, hopen, ← hselector]
    apply bind_congr_ok
    intro selector hread
    rw [chosenOfEntry_eq, chosenOfEntry_eq]
    rw [hpayload.readChoice_eq]
    exact fun shape hshape => mem_entryShapes_payload hread hshape
  | _ => rfl

end Shape

theorem Edit.ofTree_eq {shapes : List Shape} {t u : Tree} (h : Edit shapes t u) {shape : Shape}
    (hshape : shape ∈ shapes) (d : Dialect) (label : String) :
    shape.ofTree d label t = shape.ofTree d label u := by
  induction h generalizing shape d label with
  | @permute shapes entries entries' hnodup hperm =>
    apply Shape.ofTree_object_eq
    intro key _
    rw [Tree.lookup_perm hnodup hperm key]
    exact .same _
  | @exchange shapes before old new after hunnamed =>
    apply Shape.ofTree_object_eq
    intro key hkey
    have hother : ∀ entry ∈ old ++ new, entry.1 ≠ key := by
      rintro entry hentry rfl
      exact hunnamed entry hentry shape hshape hkey
    rw [Tree.lookup_exchange hother]
    exact .same _
  | @item shapes before t u after _ ih =>
    have hitems (element : Shape) (helement : element ∈ shape.itemShapes) :
        ((before ++ t :: after).mapM fun item => element.ofTree d label item)
          = (before ++ u :: after).mapM fun item => element.ofTree d label item := by
      have hitem := ih (List.mem_flatMap.2 ⟨shape, hshape, helement⟩) d label
      simp only [List.mapM_append, List.mapM_cons, hitem]
    have hlength : (before ++ t :: after).length = (before ++ u :: after).length := by
      rw [List.length_append, List.length_append, List.length_cons, List.length_cons]
    cases shape with
    | vector element length =>
      have hopen (items : List Tree) : (Shape.vector element length).ofTree d label (.array items)
          = exactly label length items.length >>= fun _ =>
            Value.list <$> items.mapM fun item => element.ofTree d label item := rfl
      rw [hopen, hopen, hlength, hitems element List.mem_cons_self]
    | list element max =>
      have hopen (items : List Tree) : (Shape.list element max).ofTree d label (.array items)
          = atMost label max items.length >>= fun _ =>
            Value.list <$> items.mapM fun item => element.ofTree d label item := rfl
      rw [hopen, hopen, hlength, hitems element List.mem_cons_self]
    | _ => rfl
  | @entry shapes before key t u after hedit ih =>
    apply Shape.ofTree_object_eq
    intro other _
    by_cases hkey : other = key
    · subst hkey
      rw [List.lookup_append, List.lookup_append, List.lookup_cons_self, List.lookup_cons_self]
      -- An entry of the same key in front hides the one that is changed.
      cases before.lookup other with
      | some first => exact .same _
      | none =>
        refine .edited hedit.sameForm fun part hpart d label => ?_
        exact ih (List.mem_flatMap.2 ⟨shape, hshape, hpart⟩) d label
    · have hother : (other == key) = false := beq_eq_false_iff_ne.2 hkey
      simp only [List.lookup_append, List.lookup_cons, hother]
      exact .same _

/-- Trees that differ only in the order of their entries and in entries that the shape does not name
    are read alike in every dialect: as the same value, or with the same error. So are the texts
    that hold them. -/
theorem ofTree_eq_of_edits {shape : Shape} {t u : Tree}
    (h : Relation.ReflTransGen (Edit [shape]) t u) :
    (∀ d, ofTree d shape t = ofTree d shape u) ∧
      (∀ text text', treeOfJson text.toList = .ok t → treeOfJson text'.toList = .ok u →
        fromJson shape text = fromJson shape text') ∧
      ∀ text text', treeOfYaml text.toList = .ok t → treeOfYaml text'.toList = .ok u →
        fromYaml shape text = fromYaml shape text' := by
  have htree (d : Dialect) : ofTree d shape t = ofTree d shape u := by
    induction h with
    | refl => rfl
    | tail _ hedit ih => exact ih.trans (hedit.ofTree_eq List.mem_cons_self d shape.name)
  refine ⟨htree, fun text text' ht hu => ?_, fun text text' ht hu => ?_⟩
  · rw [fromJson, fromJson, ht, hu]
    exact htree .json
  · rw [fromYaml, fromYaml, ht, hu]
    exact htree .yaml

/-- A note is dropped from an item of a list, the payload of a union and the union itself are turned
    round, and a key that is nobody's comes first. -/
theorem ofTree_eq_of_edits_ballot :
    let pair : Shape := .container "pair" [⟨"a", "a", .uint .u8⟩, ⟨"b", "b", .uint .u8⟩]
    let shape : Shape := .container "ballot"
      [⟨"marks", "marks", .list (.container "mark" [⟨"slot", "slot", .uint .u8⟩]) 4⟩,
        ⟨"choice", "choice", .union [none, some pair]⟩]
    let t : Tree := .object
      [("marks", .array [.object [("slot", .string "7"), ("note", .bool true)]]),
        ("choice", .object [("selector", .string "1"),
          ("value", .object [("a", .string "1"), ("b", .string "2")])])]
    let u : Tree := .object [("a", .null),
      ("marks", .array [.object [("slot", .string "7")]]),
      ("choice", .object [("value", .object [("b", .string "2"), ("a", .string "1")]),
        ("selector", .string "1")])]
    let v : Value := .container
      [.list [.container [.uint .u8 7]], .union 1 (some (.container [.uint .u8 1, .uint .u8 2]))]
    Relation.ReflTransGen (Edit [shape]) t u ∧ ∀ d, ofTree d shape u = .ok v := by
  intro pair shape t u v
  have hdropped : Edit [shape] t (.object
      [("marks", .array [.object [("slot", .string "7")]]),
        ("choice", .object [("selector", .string "1"),
          ("value", .object [("a", .string "1"), ("b", .string "2")])])]) := by
    refine @Edit.entry _ [] _ _ _ _ (@Edit.item _ [] _ _ _ ?_)
    exact @Edit.exchange _ [("slot", .string "7")] [("note", .bool true)] [] [] (by decide)
  have hpayload : Edit [shape] (.object
      [("marks", .array [.object [("slot", .string "7")]]),
        ("choice", .object [("selector", .string "1"),
          ("value", .object [("a", .string "1"), ("b", .string "2")])])]) (.object
      [("marks", .array [.object [("slot", .string "7")]]),
        ("choice", .object [("selector", .string "1"),
          ("value", .object [("b", .string "2"), ("a", .string "1")])])]) := by
    refine @Edit.entry _ [_] _ _ _ _ (@Edit.entry _ [_] _ _ _ _ ?_)
    exact .permute (by decide) (.swap _ _ _)
  have hunion : Edit [shape] (.object
      [("marks", .array [.object [("slot", .string "7")]]),
        ("choice", .object [("selector", .string "1"),
          ("value", .object [("b", .string "2"), ("a", .string "1")])])]) (.object
      [("marks", .array [.object [("slot", .string "7")]]),
        ("choice", .object [("value", .object [("b", .string "2"), ("a", .string "1")]),
          ("selector", .string "1")])]) :=
    @Edit.entry _ [_] _ _ _ _ (.permute (by decide) (.swap _ _ _))
  have hadded : Edit [shape] (.object
      [("marks", .array [.object [("slot", .string "7")]]),
        ("choice", .object [("value", .object [("b", .string "2"), ("a", .string "1")]),
          ("selector", .string "1")])]) u :=
    @Edit.exchange _ [] [] [_] [_, _] (by decide)
  have hedits := (((Relation.ReflTransGen.single hdropped).tail hpayload).tail hunion).tail hadded
  refine ⟨hedits, fun d => ?_⟩
  rw [← (ofTree_eq_of_edits hedits).1 d]
  cases d <;> rfl

end Ssz
