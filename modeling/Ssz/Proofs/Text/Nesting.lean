-- SUMMARY: A JSON text that is read nests within the limit, and so does the tree of its value.
import Ssz.Proofs.Text.Accepts
import Ssz.Proofs.Text.Json

/-!
# Nesting

The JSON parser counts brackets down from its limit. What a value inherits from its
parts, at the depth that is left, holds of every tree that it gives, and one such
property is that the tree nests no deeper. Neither does the tree that is rendered from
the value in it: a value is read along its shape, and each array or object of its own
tree was one in the tree that was read.
-/

namespace Ssz

open Text

namespace Text.Tree

/-! ## Entries that are kept -/

theorem mem_insert {key : String} {t : Tree} {entries : List (String × Tree)}
    {entry : String × Tree} (h : entry ∈ insert key t entries) :
    entry = (key, t) ∨ entry ∈ entries := by
  induction entries with
  | nil => exact .inl (List.mem_singleton.1 h)
  | cons first entries ih =>
    obtain ⟨k, u⟩ := first
    rw [insert] at h
    split at h
    · rename_i hkey
      rcases List.mem_cons.1 h with rfl | h
      · exact .inl (by rw [hkey])
      · exact .inr (List.mem_cons_of_mem _ h)
    · rcases List.mem_cons.1 h with rfl | h
      · exact .inr List.mem_cons_self
      · exact (ih h).imp_right (List.mem_cons_of_mem _)

/-- Each entry of an object is one of the entries that it was made of. -/
theorem mem_of_mem_ofEntries {entries : List (String × Tree)} {entry : String × Tree}
    (h : entry ∈ ofEntries entries) : entry ∈ entries := by
  have hfold : ∀ done : List (String × Tree),
      entry ∈ entries.foldl (fun acc entry => insert entry.1 entry.2 acc) done →
        entry ∈ done ∨ entry ∈ entries := by
    clear h
    induction entries with
    | nil => exact fun done hmem => .inl hmem
    | cons first entries ih =>
      intro done hmem
      rcases ih _ hmem with hmem | hmem
      · rcases mem_insert hmem with rfl | hmem
        · exact .inr List.mem_cons_self
        · exact .inl hmem
      · exact .inr (List.mem_cons_of_mem _ hmem)
  exact (hfold [] h).resolve_left List.not_mem_nil

theorem depth_ofEntries_le {entries : List (String × Tree)} {bound : Nat}
    (h : ∀ entry ∈ entries, entry.2.depth ≤ bound) :
    (Tree.object (ofEntries entries)).depth ≤ bound + 1 := by
  rw [depth]
  refine Nat.succ_le_succ (depthEntries_le.2 fun entry hentry => ?_)
  exact h entry (mem_of_mem_ofEntries hentry)

end Text.Tree

/-! ## Texts -/

namespace Text.Json

/-- What holds of the parts of a value that is read, at the depth left, holds of the value. -/
structure Inherited (p : (depth : Nat) → Tree → Prop) : Prop where
  null : ∀ depth, p depth .null
  bool : ∀ depth b, p depth (.bool b)
  string : ∀ depth s, p depth (.string s)
  number : ∀ depth {text n rest}, readNumber text = .ok (n, rest) → p depth (.number n)
  array : ∀ depth {items}, (∀ t ∈ items, p depth t) → p (depth + 1) (.array items)
  object : ∀ depth {entries}, (∀ entry ∈ entries, p depth entry.2) →
    p (depth + 1) (.object (Tree.ofEntries entries))

/-- It holds of whatever is read in this many steps. -/
structure ReadsInto (p : (depth : Nat) → Tree → Prop) (fuel : Nat) : Prop where
  value : ∀ {depth text t rest}, readValue fuel depth text = .ok (t, rest) → p depth t
  items : ∀ {depth text items rest}, readItems fuel depth text = .ok (items, rest) →
    ∀ t ∈ items, p depth t
  entries : ∀ {depth text entries rest}, readEntries fuel depth text = .ok (entries, rest) →
    ∀ entry ∈ entries, p depth entry.2

section Step

variable {p : (depth : Nat) → Tree → Prop} {fuel depth : Nat} {text rest : List Char}

theorem ReadsInto.value_succ (h : ReadsInto p fuel) (hp : Inherited p) {t : Tree}
    (hread : readValue (fuel + 1) depth text = .ok (t, rest)) : p depth t := by
  rw [readValue] at hread
  split at hread
  case h_1 => cases hread
  case h_2 =>
    simp only [bind_eq_ok, pure_eq_ok, Prod.mk.injEq] at hread
    obtain ⟨_, -, rfl, -⟩ := hread
    exact hp.null depth
  case h_3 | h_4 =>
    simp only [bind_eq_ok, pure_eq_ok, Prod.mk.injEq] at hread
    obtain ⟨_, -, rfl, -⟩ := hread
    exact hp.bool depth _
  case h_5 =>
    simp only [bind_eq_ok, pure_eq_ok, Prod.mk.injEq] at hread
    obtain ⟨_, -, rfl, -⟩ := hread
    exact hp.string depth _
  case h_6 =>
    split at hread
    · cases hread
    · rename_i hdepth
      obtain ⟨depth, rfl⟩ := Nat.exists_eq_succ_of_ne_zero hdepth
      split at hread
      · cases hread
        exact hp.array depth (List.forall_mem_nil _)
      · cases hread
      · simp only [bind_eq_ok, pure_eq_ok, Prod.mk.injEq] at hread
        obtain ⟨⟨items, _⟩, hitems, rfl, -⟩ := hread
        exact hp.array depth (h.items hitems)
  case h_7 =>
    split at hread
    · cases hread
    · rename_i hdepth
      obtain ⟨depth, rfl⟩ := Nat.exists_eq_succ_of_ne_zero hdepth
      split at hread
      · cases hread
        exact hp.object depth (List.forall_mem_nil _)
      · simp only [bind_eq_ok, pure_eq_ok, Prod.mk.injEq] at hread
        obtain ⟨⟨entries, _⟩, hentries, rfl, -⟩ := hread
        exact hp.object depth (h.entries hentries)
  case h_8 =>
    split at hread
    · simp only [bind_eq_ok, pure_eq_ok, Prod.mk.injEq] at hread
      obtain ⟨⟨n, _⟩, hn, rfl, -⟩ := hread
      exact hp.number depth hn
    · cases hread

theorem ReadsInto.items_succ (h : ReadsInto p fuel) {items : List Tree}
    (hread : readItems (fuel + 1) depth text = .ok (items, rest)) : ∀ t ∈ items, p depth t := by
  simp only [readItems, bind_eq_ok, Prod.exists] at hread
  obtain ⟨t, _, ht, hrest⟩ := hread
  split at hrest
  · cases hrest
    exact List.forall_mem_singleton.2 (h.value ht)
  · simp only [bind_eq_ok, pure_eq_ok, Prod.mk.injEq] at hrest
    obtain ⟨⟨items, _⟩, hitems, rfl, -⟩ := hrest
    exact List.forall_mem_cons.2 ⟨h.value ht, h.items hitems⟩
  · cases hrest
  · cases hrest

theorem ReadsInto.entries_succ (h : ReadsInto p fuel) {entries : List (String × Tree)}
    (hread : readEntries (fuel + 1) depth text = .ok (entries, rest)) :
    ∀ entry ∈ entries, p depth entry.2 := by
  simp only [readEntries, bind_eq_ok, Prod.exists] at hread
  obtain ⟨key, _, -, t, _, ht, hrest⟩ := hread
  split at hrest
  · cases hrest
    exact List.forall_mem_singleton.2 (h.value ht)
  · simp only [bind_eq_ok, pure_eq_ok, Prod.mk.injEq] at hrest
    obtain ⟨⟨entries, _⟩, hentries, rfl, -⟩ := hrest
    exact List.forall_mem_cons.2 ⟨h.value ht, h.entries hentries⟩
  · cases hrest
  · cases hrest

end Step

section Parse

variable {p : (depth : Nat) → Tree → Prop} {text : List Char} {t : Tree}

theorem Inherited.readsInto (hp : Inherited p) (fuel : Nat) : ReadsInto p fuel := by
  induction fuel with
  | zero => constructor <;> (intro _ _ _ _ hread; cases hread)
  | succ fuel ih => exact ⟨ih.value_succ hp, ih.items_succ, ih.entries_succ⟩

theorem Inherited.of_parse (hp : Inherited p) (h : parse text = .ok t) : p maxDepth t := by
  simp only [parse, bind_eq_ok, exists_unit, pure_eq_ok] at h
  obtain ⟨⟨_, _⟩, hread, -, rfl⟩ := h
  exact (hp.readsInto _).value hread

theorem Inherited.of_treeOfJson (hp : Inherited p) (h : treeOfJson text = .ok t) :
    p maxDepth t := by
  unfold treeOfJson at h
  split at h
  · cases h
  · split at h
    · rename_i hparse
      cases h
      exact hp.of_parse hparse
    · cases h
    · cases h

/-- An array or an object takes one from the depth that is left. -/
theorem inherited_depth : Inherited fun depth t => t.depth ≤ depth where
  null _ := Nat.zero_le _
  bool _ _ := Nat.zero_le _
  string _ _ := Nat.zero_le _
  number _ _ _ _ _ := Nat.zero_le _
  array _ _ h := Nat.succ_le_succ (Tree.depthItems_le.2 h)
  object _ _ h := Tree.depth_ofEntries_le h

theorem depth_le_of_treeOfJson (h : treeOfJson text = .ok t) : t.depth ≤ maxDepth :=
  inherited_depth.of_treeOfJson h

end Parse

end Text.Json

/-! ## Values -/

namespace Shape

/-- Items that are read one by one, and the trees of their values. -/
theorem depth_items_le {read : Tree → Value → Prop} {renders : Value → Tree → Prop}
    {items trees : List Tree} {values : List Value} (hread : List.Forall₂ read items values)
    (hrenders : List.Forall₂ renders values trees)
    (h : ∀ item v t, read item v → renders v t → t.depth ≤ item.depth) :
    Tree.depthItems trees ≤ Tree.depthItems items := by
  induction hread generalizing trees with
  | nil =>
    cases hrenders
    exact Nat.le_refl _
  | cons hitem _ ih =>
    cases hrenders with
    | cons ht htrees =>
      rw [Tree.depthItems, Tree.depthItems]
      have hfirst := h _ _ _ hitem ht
      have hrest := ih htrees
      omega

theorem depth_entry_le {entries : List (String × Tree)} {key label : String} {t : Tree}
    (h : present label (entries.lookup key) = .ok t) : t.depth ≤ Tree.depthEntries entries :=
  Tree.depthEntries_le.1 (Nat.le_refl _) _ (Tree.mem_of_lookup (present_eq_ok.1 h).1)

theorem depth_fields_le {d : Dialect} {fields : List (Field Shape)} {values : List Value}
    {entries rendered : List (String × Tree)}
    (hread : List.Forall₂ (ReadsField d entries) fields values)
    (hrenders : RendersFields fields values rendered)
    (h : ∀ field ∈ fields, ∀ label t u v, field.shape.ofTree d label t = .ok v →
      field.shape.Renders v u → u.depth ≤ t.depth) :
    ∀ entry ∈ rendered, entry.2.depth ≤ Tree.depthEntries entries := by
  induction hrenders with
  | nil => exact List.forall_mem_nil _
  | cons hrendered _ ih =>
    cases hread with
    | cons hfield hfields =>
      have hrest := ih hfields fun other hother => h other (List.mem_cons_of_mem _ hother)
      obtain ⟨t, hpresent, ht⟩ := hfield
      refine List.forall_mem_cons.2 ⟨?_, hrest⟩
      have hdepth := h _ List.mem_cons_self _ _ _ _ ht hrendered
      exact Nat.le_trans hdepth (depth_entry_le hpresent)

theorem depth_unionTree (selector : UInt8) (payload : Tree) :
    (unionTree selector payload).depth = payload.depth + 1 := by
  simp only [unionTree, Tree.depth, Tree.depthEntries, Nat.max_zero, Nat.zero_max]

/-- The tree of a value nests no deeper than the tree that the value was read from. -/
theorem Renders.depth_le {d : Dialect} {shape : Shape} {label : String} {t u : Tree} {v : Value}
    (hread : shape.ofTree d label t = .ok v) (h : shape.Renders v u) : u.depth ≤ t.depth := by
  -- A scalar is rendered as a leaf, and a composite was read from an array or an object itself.
  induction shape generalizing label t u v with
  | bool =>
    obtain ⟨b, -, rfl⟩ := renders_bool.1 h
    exact Nat.zero_le _
  | uint width =>
    obtain ⟨n, -, rfl⟩ := renders_uint.1 h
    exact Nat.zero_le _
  | byteVector length =>
    obtain ⟨contents, -, -, rfl⟩ := renders_byteVector.1 h
    exact Nat.zero_le _
  | byteList max =>
    obtain ⟨contents, -, -, rfl⟩ := renders_byteList.1 h
    exact Nat.zero_le _
  | bitVector length =>
    obtain ⟨bits, -, -, rfl⟩ := renders_bitVector.1 h
    exact Nat.zero_le _
  | bitList max =>
    obtain ⟨bits, -, -, rfl⟩ := renders_bitList.1 h
    exact Nat.zero_le _
  | vector element length ih =>
    obtain ⟨items, values, rfl, -, hitems, rfl⟩ := ofTree_vector.1 hread
    obtain ⟨_, trees, ⟨⟩, -, htrees, rfl⟩ := renders_vector.1 h
    exact Nat.succ_le_succ (depth_items_le hitems htrees fun _ _ _ => ih)
  | list element max ih =>
    obtain ⟨items, values, rfl, -, hitems, rfl⟩ := ofTree_list.1 hread
    obtain ⟨_, trees, ⟨⟩, -, htrees, rfl⟩ := renders_list.1 h
    exact Nat.succ_le_succ (depth_items_le hitems htrees fun _ _ _ => ih)
  | container name fields ih =>
    obtain ⟨entries, values, rfl, hfields, rfl⟩ := ofTree_container.1 hread
    obtain ⟨_, rendered, ⟨⟩, hrendered, rfl⟩ := renders_container.1 h
    apply Tree.depth_ofEntries_le
    exact depth_fields_le hfields hrendered fun field hfield _ _ _ _ => ih field hfield
  | union alternatives ih =>
    obtain ⟨entries, rfl, hcases⟩ := ofTree_union.1 hread
    obtain ⟨-, -, rfl⟩ | ⟨selector, shape, inner, payload, rfl, hshape, hinner, rfl⟩ :=
      renders_union.1 h
    · exact Nat.succ_le_succ (Nat.zero_le _)
    · obtain ⟨-, -, -, ⟨⟩⟩ | ⟨_, other, t, _, -, hother, ht, hread, ⟨⟩⟩ := hcases
      cases hshape.symm.trans hother
      have hpayload := ih shape (List.mem_of_getElem? hshape) hread hinner
      rw [depth_unionTree]
      exact Nat.succ_le_succ (Nat.le_trans hpayload (depth_entry_le ht))

end Shape

end Ssz
