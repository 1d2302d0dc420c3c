-- SUMMARY: Integers may be written as bare numbers for all dialects but JSON, which refuses them.
import Ssz.Proofs.Text.Dialects
import Ssz.Proofs.Text.Json
import Ssz.Schema

/-!
# Bare numbers

A tree that the JSON reader accepts may have some of its integers turned into bare
numbers. The other dialects read the same value from the tree that results. The JSON
reader stops at the first number that it comes to; it comes to one, since only
integers that it had read were turned.

All this takes names that are distinct within each record. Fields of one name read
the same entry, and what is an integer for one of them may be anything for another.
-/

namespace Ssz

open Text

/-! ## Entries of objects -/

/-- The same keys in the same order, and each key once, as in every object of a JSON text. -/
structure Text.Tree.SameKeys (entries entries' : List (String × Tree)) : Prop where
  keys_eq : entries'.map Prod.fst = entries.map Prod.fst
  nodup : (entries.map Prod.fst).Nodup

namespace Text.Tree.SameKeys

variable {entries entries' : List (String × Tree)}

theorem exists_lookup (h : SameKeys entries entries') {key : String} {t : Tree}
    (ht : entries.lookup key = some t) : ∃ t', entries'.lookup key = some t' := by
  have hkey : key ∈ entries'.map Prod.fst := by
    rw [h.keys_eq]
    exact List.mem_map_of_mem (mem_of_lookup ht)
  obtain ⟨⟨_, t'⟩, hmem, rfl⟩ := List.mem_map.1 hkey
  have hnodup : (entries'.map Prod.fst).Nodup := h.keys_eq ▸ h.nodup
  exact ⟨t', lookup_of_mem hnodup hmem⟩

/-- Objects with the same keys are told apart by some entry. -/
theorem ext (h : SameKeys entries entries')
    (hlookup : ∀ key, entries'.lookup key = entries.lookup key) : entries' = entries := by
  have hnodup : (entries'.map Prod.fst).Nodup := h.keys_eq ▸ h.nodup
  have hlength : entries'.length = entries.length := by
    have := congrArg List.length h.keys_eq
    rwa [List.length_map, List.length_map] at this
  apply List.ext_getElem hlength
  intro i hi' hi
  have hkey : entries'[i].1 = entries[i].1 := by
    have := congrArg (fun keys => keys[i]?) h.keys_eq
    simpa [hi, hi'] using this
  have ht' : entries'.lookup entries[i].1 = some entries'[i].2 :=
    lookup_of_mem hnodup (hkey ▸ List.getElem_mem hi')
  have ht : entries.lookup entries[i].1 = some entries[i].2 :=
    lookup_of_mem h.nodup (List.getElem_mem hi)
  rw [hlookup, ht, Option.some.injEq] at ht'
  exact Prod.ext hkey ht'.symm

end Text.Tree.SameKeys

/-! ## Turning integers into bare numbers -/

namespace Shape

/-- The payload of a union is read as this shape. -/
def Chosen (alternatives : List (Option Shape)) (entries : List (String × Tree)) (shape : Shape) :
    Prop :=
  ∃ selector, ReadsSelector .json entries selector ∧
    alternatives[selector.toNat]? = some (some shape)

/-- The second tree is the first with some of the canonical numerals where the shape has integers
    turned into bare numbers. Nothing else changes. In a record, some of the fields have the entries
    of their names turned. -/
inductive Bared : Shape → Tree → Tree → Prop
  | same (shape : Shape) (t : Tree) : Bared shape t t
  | numeral (width : UintWidth) {n : Nat} (hn : n < Number.bound) :
    Bared (.uint width) (.string (Decimal.render n)) (.number (.natural n))
  | vector {element : Shape} {length : Nat} {items items' : List Tree}
    (hlength : items'.length = items.length)
    (hitems : ∀ (i : Nat) t t', items[i]? = some t → items'[i]? = some t' → Bared element t t') :
    Bared (.vector element length) (.array items) (.array items')
  | list {element : Shape} {max : Nat} {items items' : List Tree}
    (hlength : items'.length = items.length)
    (hitems : ∀ (i : Nat) t t', items[i]? = some t → items'[i]? = some t' → Bared element t t') :
    Bared (.list element max) (.array items) (.array items')
  | container {name : String} {fields : List (Field Shape)} (turned : List (Field Shape))
    {entries entries' : List (String × Tree)}
    (hkeys : Tree.SameKeys entries entries')
    (hturned : ∀ field ∈ turned, field ∈ fields)
    (hfields : ∀ field ∈ turned, ∀ t t', entries.lookup field.name = some t →
      entries'.lookup field.name = some t' → Bared field.shape t t')
    (hothers : ∀ key, (∀ field ∈ turned, field.name ≠ key) →
      entries'.lookup key = entries.lookup key) :
    Bared (.container name fields) (.object entries) (.object entries')
  | union {alternatives : List (Option Shape)} {entries entries' : List (String × Tree)}
    (hkeys : Tree.SameKeys entries entries')
    (hselector : ∀ t t', entries.lookup selectorKey = some t →
      entries'.lookup selectorKey = some t' → Bared (.uint .u8) t t')
    (hpayload : ∀ shape, Chosen alternatives entries shape → ∀ t t',
      entries.lookup valueKey = some t → entries'.lookup valueKey = some t' → Bared shape t t')
    (hothers : ∀ key, key ≠ selectorKey →
      (key = valueKey → ∀ shape, ¬ Chosen alternatives entries shape) →
      entries'.lookup key = entries.lookup key) :
    Bared (.union alternatives) (.object entries) (.object entries')

theorem ReadsSelector.unique {d : Dialect} {entries : List (String × Tree)}
    {selector other : UInt8} (h : ReadsSelector d entries selector)
    (hother : ReadsSelector d entries other) : selector = other := by
  obtain ⟨t, ht, hn⟩ := h
  obtain ⟨u, hu, hm⟩ := hother
  cases ht.symm.trans hu
  exact UInt8.eq_of_toBitVec_eq (Except.ok.inj (hn.symm.trans hm))

end Shape

/-! ## What becomes of the two runs -/

/-- The lenient run gives `a`. So does the strict run if nothing was turned, and otherwise it stops
    at a bare number. -/
inductive Loosened {α : Type} (unchanged : Prop) (a : α) :
    (strict lenient : Except TextError α) → Prop
  | same (h : unchanged) : Loosened unchanged a (.ok a) (.ok a)
  | bare (label : String) : Loosened unchanged a (.error (.bareNumber label)) (.ok a)

namespace Loosened

variable {α β γ : Type} {p q : Prop} {a : α} {x y : Except TextError α}

theorem imp (h : Loosened p a x y) (hpq : p → q) : Loosened q a x y := by
  cases h with
  | same h => exact .same (hpq h)
  | bare label => exact .bare label

theorem of_agrees {d : Dialect} {bare : Prop} (h : Agrees d bare x y) (hx : x = .ok a)
    (hp : p) : Loosened p a x y := by
  subst hx
  rw [h.of_ok]
  exact .same hp

theorem bind {b : β} {f g : α → Except TextError β} (h : Loosened p a x y)
    (hf : Loosened q b (f a) (g a)) : Loosened (p ∧ q) b (x >>= f) (y >>= g) := by
  cases h with
  | same h => exact hf.imp (And.intro h)
  | bare label =>
    show Loosened (p ∧ q) b (.error (.bareNumber label)) (g a)
    generalize f a = strict, g a = lenient at hf
    cases hf with
    | same => exact .bare label
    | bare => exact .bare label

/-- A step that nothing changes. -/
theorem bind_ok {b : β} {f g : α → Except TextError β} (hx : x = .ok a) (hy : y = .ok a)
    (h : Loosened p b (f a) (g a)) : Loosened p b (x >>= f) (y >>= g) := by
  subst hx hy
  exact h

theorem map (h : Loosened p a x y) (f : α → β) :
    Loosened p (f a) (x >>= fun a => pure (f a)) (y >>= fun a => pure (f a)) := by
  cases h with
  | same h => exact .same h
  | bare label => exact .bare label

/-- Turning one element or another: `f` is the run before, `strict` and `lenient` those after. -/
theorem mapM {f : α → Except TextError γ} {strict lenient : β → Except TextError γ}
    {unchanged : α → β → Prop} {xs : List α} {ys : List β} {zs : List γ}
    (hread : List.Forall₂ (fun x z => f x = .ok z) xs zs)
    (h : List.Forall₂ (fun x y => ∀ z, f x = .ok z →
      Loosened (unchanged x y) z (strict y) (lenient y)) xs ys) :
    Loosened (List.Forall₂ unchanged xs ys) zs (ys.mapM strict) (ys.mapM lenient) := by
  induction h generalizing zs with
  | nil =>
    cases hread
    exact .same .nil
  | cons hxy _ ih =>
    obtain _ | ⟨hz, hzs⟩ := hread
    rw [List.mapM_cons, List.mapM_cons]
    exact ((hxy _ hz).bind ((ih hzs).map _)).imp fun ⟨hhead, htail⟩ => .cons hhead htail

end Loosened

/-- Whatever the JSON reader makes of `t` is loosened by turning `t` into `t'`. -/
def Shape.Loosens (d : Dialect) (shape : Shape) (t t' : Tree) : Prop :=
  ∀ label v, shape.ofTree .json label t = .ok v →
    Loosened (t' = t) v (shape.ofTree .json label t') (shape.ofTree d label t')

theorem Shape.Loosens.refl {d : Dialect} (shape : Shape) (t : Tree) : shape.Loosens d t t :=
  fun label _ hread => .of_agrees (shape.ofTree_agrees label t) hread rfl

namespace Shape.Bared

variable {shape : Shape} {t t' : Tree} {d : Dialect}

/-- What is present stays present. -/
theorem present (h : shape.Bared t t') {label : String}
    (ht : Text.present label (some t) = .ok t) : Text.present label (some t') = .ok t' := by
  cases h with
  | same => exact ht
  | _ => rfl

theorem uintOf {width : UintWidth} (h : (Shape.uint width).Bared t t')
    (hd : d.acceptsNumbers = true) {label : String} {n : BitVec width.bits}
    (hread : Text.uintOf .json width label t = .ok n) :
    Loosened (t' = t) n (Text.uintOf .json width label t') (Text.uintOf d width label t') := by
  cases h with
  | same => exact .of_agrees (uintOf_agrees width t) hread rfl
  | @numeral _ number =>
    have hlenient : Text.uintOf d width label (.number (.natural number)) = .ok n := by
      simp only [Text.uintOf, if_pos hd]
      exact hread
    rw [hlenient]
    exact .bare label

theorem items {items items' : List Tree} {values : List Value}
    (hlength : items'.length = items.length) {strict lenient : Tree → Except TextError Value}
    (hread : items.mapM strict = .ok values)
    (h : ∀ (i : Nat) t t', items[i]? = some t → items'[i]? = some t' →
      ∀ v, strict t = .ok v → Loosened (t' = t) v (strict t') (lenient t')) :
    Loosened (items' = items) values (items'.mapM strict) (items'.mapM lenient) := by
  have hpairs : List.Forall₂ (fun t t' => ∀ v, strict t = .ok v →
      Loosened (t' = t) v (strict t') (lenient t')) items items' := by
    apply List.forall₂_iff_get.2
    refine ⟨hlength.symm, fun i hi hi' => ?_⟩
    exact h i _ _ (List.getElem?_eq_getElem hi) (List.getElem?_eq_getElem hi')
  apply (Loosened.mapM (mapM_eq_ok.1 hread) hpairs).imp
  intro hsame
  exact List.forall₂_eq_eq_eq ▸ hsame.flip

section Entries

variable {entries entries' : List (String × Tree)}

/-- The same of an entry that has to be present. -/
theorem entry {α : Type} {key label : String} {strict lenient : Tree → Except TextError α} {v : α}
    (hkeys : Tree.SameKeys entries entries')
    (hbared : ∀ t t', entries.lookup key = some t → entries'.lookup key = some t' →
      shape.Bared t t')
    (h : ∀ t t', entries.lookup key = some t → entries'.lookup key = some t' →
      ∀ v, strict t = .ok v → Loosened (t' = t) v (strict t') (lenient t'))
    (hread : (Text.present label (entries.lookup key) >>= strict) = .ok v) :
    Loosened (entries'.lookup key = entries.lookup key) v
      (Text.present label (entries'.lookup key) >>= strict)
      (Text.present label (entries'.lookup key) >>= lenient) := by
  obtain ⟨t, ht, hv⟩ := bind_eq_ok.1 hread
  have hlookup := (present_eq_ok.1 ht).1
  obtain ⟨t', hlookup'⟩ := hkeys.exists_lookup hlookup
  rw [hlookup] at ht
  have ht' := (hbared t t' hlookup hlookup').present ht
  rw [hlookup, hlookup']
  exact .bind_ok ht' ht' ((h t t' hlookup hlookup' v hv).imp (congrArg some))

theorem fields {fields : List (Field Shape)} {values : List Value}
    (hkeys : Tree.SameKeys entries entries')
    (hbared : ∀ field ∈ fields, ∀ t t', entries.lookup field.name = some t →
      entries'.lookup field.name = some t' → field.shape.Bared t t')
    (hothers : ∀ key, (∀ field ∈ fields, field.name ≠ key) →
      entries'.lookup key = entries.lookup key)
    (hread : fieldsOfEntries .json fields entries = .ok values)
    (ih : ∀ field ∈ fields, ∀ t t', entries.lookup field.name = some t →
      entries'.lookup field.name = some t' → field.shape.Loosens d t t') :
    Loosened (entries' = entries) values (fieldsOfEntries .json fields entries')
      (fieldsOfEntries d fields entries') := by
  rw [fieldsOfEntries_eq_mapM] at hread
  rw [fieldsOfEntries_eq_mapM, fieldsOfEntries_eq_mapM]
  have hfields : List.Forall₂ (fun field field' => ∀ v, readField .json entries field = .ok v →
      Loosened (entries'.lookup field.name = entries.lookup field.name) v
        (readField .json entries' field') (readField d entries' field')) fields fields := by
    apply List.forall₂_same.2
    intro field hfield v hv
    exact entry hkeys (hbared field hfield)
      (fun t t' ht ht' => ih field hfield t t' ht ht' field.label) hv
  apply (Loosened.mapM (mapM_eq_ok.1 hread) hfields).imp
  intro hsame
  apply hkeys.ext
  intro key
  by_cases hkey : ∃ field ∈ fields, field.name = key
  · obtain ⟨field, hfield, rfl⟩ := hkey
    exact List.forall₂_same.1 hsame field hfield
  · exact hothers key fun field hfield hname => hkey ⟨field, hfield, hname⟩

theorem choice {alternatives : List (Option Shape)} {selector : UInt8} {label : String}
    {inner : Option Value} (hkeys : Tree.SameKeys entries entries')
    (hselector : ReadsSelector .json entries selector)
    (hbared : ∀ shape, Chosen alternatives entries shape → ∀ t t',
      entries.lookup valueKey = some t → entries'.lookup valueKey = some t' → shape.Bared t t')
    (hothers : (∀ shape, ¬ Chosen alternatives entries shape) →
      entries'.lookup valueKey = entries.lookup valueKey)
    (hread : chosenOfEntry .json selector alternatives selector.toNat label
      (entries.lookup valueKey) = .ok inner)
    (ih : ∀ shape, Chosen alternatives entries shape → ∀ t t',
      entries.lookup valueKey = some t → entries'.lookup valueKey = some t' →
      shape.Loosens d t t') :
    Loosened (entries'.lookup valueKey = entries.lookup valueKey) inner
      (chosenOfEntry .json selector alternatives selector.toNat label (entries'.lookup valueKey))
      (chosenOfEntry d selector alternatives selector.toNat label (entries'.lookup valueKey)) := by
  rw [chosenOfEntry_eq] at hread
  rw [chosenOfEntry_eq, chosenOfEntry_eq]
  by_cases hchosen : ∃ shape, Chosen alternatives entries shape
  · obtain ⟨shape, hshape⟩ := hchosen
    obtain ⟨other, hother, hget⟩ := id hshape
    rw [hother.unique hselector] at hget
    rw [hget] at hread ⊢
    apply entry hkeys (hbared shape hshape) _ hread
    intro t t' ht ht' v hv
    simp only [bind_eq_ok, pure_eq_ok] at hv
    obtain ⟨w, hw, rfl⟩ := hv
    exact (ih shape hshape t t' ht ht' label w hw).map some
  · have hsame := hothers fun shape hshape => hchosen ⟨shape, hshape⟩
    rw [hsame]
    have hagrees (shape : Shape) (t : Tree) :
        Agrees d True (shape.ofTree .json label t) (shape.ofTree d label t) :=
      (shape.ofTree_agrees label t).imp fun _ => trivial
    exact .of_agrees (readChoice_agrees _ _ _ _ fun shape t _ _ => hagrees shape t) hread rfl

end Entries

/-- Of two fields of one name only one is there, so an entry is turned for the field that reads it,
    or it is not turned at all. -/
theorem mem_turned_or_same {fields turned : List (Field Shape)}
    {entries entries' : List (String × Tree)} (hnodup : (fields.map Field.name).Nodup)
    (hturned : ∀ field ∈ turned, field ∈ fields)
    (hothers : ∀ key, (∀ field ∈ turned, field.name ≠ key) →
      entries'.lookup key = entries.lookup key) {field : Field Shape} (hfield : field ∈ fields) :
    field ∈ turned ∨ entries'.lookup field.name = entries.lookup field.name := by
  by_cases hmem : field ∈ turned
  · exact .inl hmem
  · refine .inr (hothers field.name fun other hother hname => hmem ?_)
    rwa [← List.inj_on_of_nodup_map hnodup (hturned other hother) hfield hname]

theorem loosens (h : shape.Bared t t') (hd : d.acceptsNumbers = true)
    (hnames : shape.DistinctNames) : shape.Loosens d t t' := by
  induction h with
  | same shape t => exact .refl shape t
  | numeral width hn =>
    intro label v hread
    obtain ⟨n, hn', rfl⟩ := ofTree_uint.1 hread
    exact (uintOf (.numeral width hn) hd hn').map (Value.uint width)
  | vector hlength _ ih =>
    intro label v hread
    obtain _ | _ | _ | _ | _ | _ | hnames := hnames
    simp only [Shape.ofTree, bind_eq_ok, pure_eq_ok, exists_unit, itemsOf_eq_ok] at hread
    obtain ⟨_, ⟨⟩, hcount, values, hvalues, rfl⟩ := hread
    have hitems := items hlength hvalues fun i t t' ht ht' => ih i t t' ht ht' hnames label
    rw [← hlength] at hcount
    exact .bind_ok rfl rfl (.bind_ok hcount hcount ((hitems.map Value.list).imp (congrArg _)))
  | list hlength _ ih =>
    intro label v hread
    obtain _ | _ | _ | _ | _ | _ | _ | hnames := hnames
    simp only [Shape.ofTree, bind_eq_ok, pure_eq_ok, exists_unit, itemsOf_eq_ok] at hread
    obtain ⟨_, ⟨⟩, hcount, values, hvalues, rfl⟩ := hread
    have hitems := items hlength hvalues fun i t t' ht ht' => ih i t t' ht ht' hnames label
    rw [← hlength] at hcount
    exact .bind_ok rfl rfl (.bind_ok hcount hcount ((hitems.map Value.list).imp (congrArg _)))
  | @container name fields' turned entries entries' hkeys hturned hbared hothers ih =>
    intro label v hread
    obtain _ | _ | _ | _ | _ | _ | _ | _ | ⟨hnodup, -, hnames⟩ := hnames
    have hentry : ∀ field ∈ fields', ∀ u u', entries.lookup field.name = some u →
        entries'.lookup field.name = some u' →
          field.shape.Bared u u' ∧ field.shape.Loosens d u u' := by
      intro field hfield u u' hu hu'
      rcases mem_turned_or_same hnodup hturned hothers hfield with hmem | hsame
      · exact ⟨hbared field hmem u u' hu hu', ih field hmem u u' hu hu' (hnames field hfield)⟩
      · cases (hu'.symm.trans hsame).trans hu
        exact ⟨.same _ _, .refl _ _⟩
    have hrest (key : String) (hkey : ∀ field ∈ fields', field.name ≠ key) :
        entries'.lookup key = entries.lookup key :=
      hothers key fun field hfield => hkey field (hturned field hfield)
    simp only [Shape.ofTree, bind_eq_ok, pure_eq_ok, entriesOf_eq_ok] at hread
    obtain ⟨_, ⟨⟩, values, hvalues, rfl⟩ := hread
    have hall := fields hkeys (fun field hfield u u' hu hu' => (hentry field hfield u u' hu hu').1)
      hrest hvalues fun field hfield u u' hu hu' => (hentry field hfield u u' hu hu').2
    exact .bind_ok rfl rfl ((hall.map Value.container).imp (congrArg _))
  | @union alternatives entries entries' hkeys hselector hpayload hothers _ ih =>
    intro label v hread
    obtain _ | _ | _ | _ | _ | _ | _ | _ | _ | hnames := hnames
    simp only [Shape.ofTree, bind_eq_ok, pure_eq_ok, entriesOf_eq_ok] at hread
    obtain ⟨_, ⟨⟩, s, hs, selector, hs', inner, hinner, rfl⟩ := hread
    have hlookup := (present_eq_ok.1 hs).1
    obtain ⟨s', hlookup'⟩ := hkeys.exists_lookup hlookup
    have hnumber := (hselector s s' hlookup hlookup').uintOf hd hs'
    have hchosen (inner : Shape) (h : Chosen alternatives entries inner) : inner.DistinctNames := by
      obtain ⟨_, -, hget⟩ := h
      exact hnames inner (List.mem_of_getElem? hget)
    have hchoice := choice hkeys ⟨s, hs, hs'⟩ hpayload (hothers valueKey (by decide) fun _ => ·)
      hinner fun inner hinner t t' ht ht' => ih inner hinner t t' ht ht' (hchosen inner hinner)
    rw [hlookup] at hs
    have hpresent := (hselector s s' hlookup hlookup').present hs
    rw [← hlookup'] at hpresent
    -- If the selector was turned, the strict run does not come to the payload.
    have hunion : Loosened (s' = s ∧ entries'.lookup valueKey = entries.lookup valueKey)
        (.union ⟨selector⟩ inner)
        (Shape.ofTree .json (.union alternatives) label (.object entries'))
        (Shape.ofTree d (.union alternatives) label (.object entries')) :=
      .bind_ok rfl rfl
        (.bind_ok hpresent hpresent (hnumber.bind (hchoice.map (Value.union ⟨selector⟩))))
    apply hunion.imp
    rintro ⟨rfl, hvalue⟩
    apply congrArg Tree.object
    apply hkeys.ext
    intro key
    by_cases hkey : key = selectorKey
    · rw [hkey, hlookup, hlookup']
    · by_cases hkey' : key = valueKey
      · rw [hkey', hvalue]
      · exact hothers key hkey fun heq => absurd heq hkey'

end Shape.Bared

/-! ## The dialects compared -/

theorem parse_of_treeOfJson {text : List Char} {t : Tree} (h : treeOfJson text = .ok t) :
    Json.parse text = .ok t := by
  unfold treeOfJson at h
  split at h
  · cases h
  · split at h
    · rename_i hparse
      cases h
      exact hparse
    · cases h
    · cases h

/-- What a typed JSON reader accepts is the same value to a reader that is handed the tree. -/
theorem Schema.fromTree_of_fromJson {α : Type} {s : Schema α} {text : String} {x : α}
    (h : s.fromJson text = .ok x) :
    ∃ t, Json.parse text.toList = .ok t ∧ s.fromTree t = .ok x := by
  obtain ⟨v, hv, hx⟩ := bind_eq_ok.1 h
  obtain ⟨t, ht, hread⟩ := bind_eq_ok.1 hv
  have hagrees := s.shape.ofTree_agrees (d := .tree) s.shape.name t
  rw [show s.shape.ofTree .json s.shape.name t = .ok v from hread] at hagrees
  exact ⟨t, parse_of_treeOfJson ht, bind_eq_ok.2 ⟨v, hagrees.of_ok, hx⟩⟩

/-- What the JSON reader accepts, the reader of trees of unknown format reads as the same value. On
    trees without numbers the two agree in their errors as well, but for the name of the format. If
    names are distinct within each record, an accepted tree of which some integers are turned into
    bare numbers is still read as the same value by the second, while the first complains of a
    number. -/
theorem dialects_agree (shape : Shape) (t : Tree) :
    (∀ v, ofTree .json shape t = .ok v → ofTree .tree shape t = .ok v) ∧
      (¬ t.HasNumber →
        ofTree .tree shape t = (ofTree .json shape t).mapError (·.inDialect .tree)) ∧
      (shape.DistinctNames → ∀ v t', ofTree .json shape t = .ok v → shape.Bared t t' →
        ofTree .tree shape t' = .ok v ∧
          (t' ≠ t → ∃ label, ofTree .json shape t' = .error (.bareNumber label))) ∧
      ∀ {α : Type} (s : Schema α) (text : String) (x : α), s.fromJson text = .ok x →
        ∃ tree, Json.parse text.toList = .ok tree ∧ s.fromTree tree = .ok x := by
  have hagrees : Agrees .tree t.HasNumber (ofTree .json shape t) (ofTree .tree shape t) :=
    shape.ofTree_agrees shape.name t
  refine ⟨fun v hv => ?_, fun hnumber => hagrees.eq_mapError hnumber,
    fun hnames v t' hv hbared => ?_, fun s text x h => s.fromTree_of_fromJson h⟩
  · rw [hv] at hagrees
    exact hagrees.of_ok
  · have hloosened : Loosened (t' = t) v (ofTree .json shape t') (ofTree .tree shape t') :=
      hbared.loosens rfl hnames shape.name v hv
    generalize ofTree .json shape t' = strict, ofTree .tree shape t' = lenient at hloosened
    cases hloosened with
    | same hsame => exact ⟨rfl, fun hne => absurd hsame hne⟩
    | bare label => exact ⟨rfl, fun _ => ⟨label, rfl⟩⟩

/-- A numeral of a list and the selector of a union are turned; a numeral with a leading zero and
    the payload stay. -/
theorem dialects_agree_ballot :
    let shape : Shape := .container "ballot" [⟨"marks", "marks", .list (.uint .u8) 4⟩,
      ⟨"choice", "choice", .union [none, some (.uint .u16)]⟩]
    let t : Tree := .object [("marks", .array [.string "1", .string "02"]),
      ("choice", .object [("selector", .string "1"), ("value", .string "300")])]
    let t' : Tree := .object [("marks", .array [.number (.natural 1), .string "02"]),
      ("choice", .object [("selector", .number (.natural 1)), ("value", .string "300")])]
    let v : Value := .container
      [.list [.uint .u8 1, .uint .u8 2], .union 1 (some (.uint .u16 300))]
    ofTree .json shape t = .ok v ∧ shape.DistinctNames ∧ shape.Bared t t' ∧
      ofTree .tree shape t' = .ok v ∧
      ∃ label, ofTree .json shape t' = .error (.bareNumber label) := by
  intro shape t t' v
  have hread : ofTree .json shape t = .ok v := by rfl
  have hone : (Shape.uint .u8).Bared (.string "1") (.number (.natural 1)) := by
    have hrender : Decimal.render 1 = "1" := by rw [Decimal.render, Decimal.digits]; rfl
    exact hrender ▸ .numeral .u8 (by decide)
  have hmarks : (Shape.list (.uint .u8) 4).Bared (.array [.string "1", .string "02"])
      (.array [.number (.natural 1), .string "02"]) := by
    refine .list rfl fun i u u' hu hu' => ?_
    rcases i with _ | _ | i
    · cases hu
      cases hu'
      exact hone
    · cases hu
      cases hu'
      exact .same _ _
    · cases hu
  have hchoice : (Shape.union [none, some (.uint .u16)]).Bared
      (.object [("selector", .string "1"), ("value", .string "300")])
      (.object [("selector", .number (.natural 1)), ("value", .string "300")]) := by
    refine .union ⟨rfl, by decide⟩ ?_ ?_ ?_
    · intro u u' hu hu'
      cases hu
      cases hu'
      exact hone
    · intro inner _ u u' hu hu'
      cases hu
      cases hu'
      exact .same _ _
    · intro key hkey _
      simp only [List.lookup_cons, beq_eq_false_iff_ne.2 (show key ≠ "selector" from hkey)]
  have hbared : shape.Bared t t' := by
    refine .container _ ⟨rfl, by decide⟩ (fun _ hfield => hfield) ?_ ?_
    · intro field hfield u u' hu hu'
      simp only [List.mem_cons, List.not_mem_nil, or_false] at hfield
      obtain rfl | rfl := hfield
      · cases hu
        cases hu'
        exact hmarks
      · cases hu
        cases hu'
        exact hchoice
    · intro key hkey
      have hmarks := hkey _ List.mem_cons_self
      have hchoice := hkey _ (List.mem_cons_of_mem _ List.mem_cons_self)
      simp only [List.lookup_cons, beq_eq_false_iff_ne.2 hmarks.symm,
        beq_eq_false_iff_ne.2 hchoice.symm]
  obtain ⟨-, -, hturned, -⟩ := dialects_agree shape t
  have hnames : shape.DistinctNames := by
    refine .container (by decide) (fun _ _ => trivial) fun field hfield => ?_
    simp only [List.mem_cons, List.not_mem_nil, or_false] at hfield
    obtain rfl | rfl := hfield
    · exact .list .uint
    · refine .union fun choice hchoice => ?_
      simp only [List.mem_cons, reduceCtorEq, Option.some.injEq, List.not_mem_nil, or_false,
        false_or] at hchoice
      exact hchoice ▸ .uint
  obtain ⟨hlenient, hstrict⟩ := hturned hnames v t' hread hbared
  refine ⟨hread, hnames, hbared, hlenient, hstrict ?_⟩
  intro heq
  injection heq with heq
  simp at heq

/-- Two fields of one name, of which the first reads the entry as an integer and the second as
    bytes. Turned for the first, it can no longer be read for the second. -/
theorem bare_number_of_shared_name :
    let shape : Shape := .container "pair" [⟨"a", "a", .uint .u8⟩, ⟨"a", "a", .byteList 4⟩]
    let t : Tree := .object [("a", .string "12")]
    let t' : Tree := .object [("a", .number (.natural 12))]
    ofTree .json shape t = .ok (.container [.uint .u8 12, .bytes [18]]) ∧ shape.Bared t t' ∧
      ofTree .tree shape t' = .error (.misfit .tree (.wrongKind "hex string" "a" "number")) := by
  intro shape t t'
  have hrender : Decimal.render 12 = "12" := by
    rw [Decimal.render, Decimal.digits_of_ge (by decide), Decimal.digits_of_lt (by decide)]
    rfl
  have hfirst :
      (Shape.uint .u8).ofTree .tree "a" (.number (.natural 12)) = .ok (.uint .u8 12) :=
    Shape.ofTree_uint.2 ⟨12, congrArg (fun s => inField "a" (readUint .u8 s)) hrender, rfl⟩
  refine ⟨by rfl, ?_, ?_⟩
  · refine .container [⟨"a", "a", .uint .u8⟩] ⟨rfl, by decide⟩ (by simp) ?_ ?_
    · intro field hfield u u' hu hu'
      cases List.mem_singleton.1 hfield
      cases hu
      cases hu'
      exact hrender ▸ .numeral .u8 (by decide)
    · intro key hkey
      have hne : key ≠ "a" := (hkey _ List.mem_cons_self).symm
      simp only [List.lookup_cons, beq_eq_false_iff_ne.2 hne]
  · have hfields : Shape.fieldsOfEntries .tree
        [⟨"a", "a", .uint .u8⟩, ⟨"a", "a", .byteList 4⟩] [("a", .number (.natural 12))]
          = .error (.misfit .tree (.wrongKind "hex string" "a" "number")) := by
      change ((Shape.uint .u8).ofTree .tree "a" (.number (.natural 12)) >>= fun _ => _) = _
      rw [hfirst]
      rfl
    exact congrArg (fun read => read >>= fun values => pure (Value.container values)) hfields

end Ssz
