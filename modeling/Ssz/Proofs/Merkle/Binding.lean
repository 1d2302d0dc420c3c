-- SUMMARY: Values of one shape with the same root are the same, unless hashing them collides.
import Ssz.Proofs.Merkle.Trace

/-!
# Binding

A root stands for one value only, as long as no two different pairs of chunks
that are hashed for it or for the other root have the same hash. Going down from
two equal roots, equal hashes come from equal pairs. A length that is mixed in
makes the two trees below it equally long, so that what is filled up with zeros
is filled up in the same way on both sides and the contents can be compared leaf
by leaf.
-/

namespace Ssz

/-- No two different pairs among these have the same hash. -/
def CollisionFree (pairs : List (Chunk × Chunk)) : Prop :=
  ∀ p ∈ pairs, ∀ q ∈ pairs, hashPair p.1 p.2 = hashPair q.1 q.2 → p = q

instance (pairs : List (Chunk × Chunk)) : Decidable (CollisionFree pairs) :=
  inferInstanceAs
    (Decidable (∀ p ∈ pairs, ∀ q ∈ pairs, hashPair p.1 p.2 = hashPair q.1 q.2 → p = q))

/-! ## Leaves -/

/-- Filling up with zeros loses nothing of a byte string whose length is known. -/
theorem padded_inj {n : Nat} {a b : Bytes} (hlength : a.length = b.length) (hroom : a.length ≤ n)
    (h : ByteVector.padded n a = ByteVector.padded n b) : a = b := by
  have hlist : a.take n ++ List.replicate (n - a.length) 0
      = b.take n ++ List.replicate (n - b.length) 0 := congrArg ByteVector.toList h
  rw [List.take_of_length_le hroom, List.take_of_length_le (hlength ▸ hroom)] at hlist
  exact (List.append_inj hlist hlength).1

theorem padded_pieces_inj {size count : Nat} {a b : Bytes} (hlength : a.length = b.length)
    (hroom : a.length ≤ size * count)
    (h : (pieces size count a).map (ByteVector.padded size)
      = (pieces size count b).map (ByteVector.padded size)) : a = b := by
  induction count generalizing a b with
  | zero =>
    have ha : a.length = 0 := by omega
    have hb : b.length = 0 := hlength ▸ ha
    rw [List.eq_nil_of_length_eq_zero ha, List.eq_nil_of_length_eq_zero hb]
  | succ count ih =>
    simp only [pieces, List.map_cons, List.cons.injEq] at h
    obtain ⟨hfirst, hrest⟩ := h
    have htake : a.take size = b.take size := by
      refine padded_inj ?_ ?_ hfirst
      · rw [List.length_take, List.length_take, hlength]
      · exact List.length_take_le size a
    have hdrop : a.drop size = b.drop size := by
      rw [Nat.mul_succ] at hroom
      refine ih ?_ ?_ hrest
      · rw [List.length_drop, List.length_drop, hlength]
      · rw [List.length_drop]
        omega
    rw [← List.take_append_drop size a, htake, hdrop, List.take_append_drop]

theorem packChunks_inj {a b : Bytes} (hlength : a.length = b.length)
    (h : packChunks a = packChunks b) : a = b := by
  unfold packChunks at h
  rw [← hlength] at h
  refine padded_pieces_inj hlength ?_ h
  unfold ceilDiv bytesPerChunk
  omega

theorem littleEndian_inj {width m n : Nat} (hm : m < 256 ^ width) (hn : n < 256 ^ width)
    (h : littleEndian width m = littleEndian width n) : m = n := by
  rw [← ofLittleEndian_littleEndian hm, h, ofLittleEndian_littleEndian hn]

theorem lt_of_le_maxCount {count : Nat} (h : count ≤ maxCount) : count < 256 ^ 8 :=
  Nat.lt_of_le_of_lt h (by decide)

theorem eq_of_map_eq {α β : Type} {f : α → β} {xs ys : List α} (h : xs.map f = ys.map f)
    (hinj : ∀ x ∈ xs, ∀ y ∈ ys, f x = f y → x = y) : xs = ys := by
  induction xs generalizing ys with
  | nil => exact (List.map_eq_nil_iff.1 h.symm).symm
  | cons x xs ih =>
    cases ys with
    | nil => cases h
    | cons y ys =>
      simp only [List.map_cons, List.cons.injEq] at h
      simp only [List.forall_mem_cons] at hinj
      obtain ⟨hx, hxs⟩ := hinj
      rw [hx.1 h.1, ih h.2 fun x hx => (hxs x hx).2]

namespace Traced

/-! ## Trees -/

variable {α β : Type}

/-- No pair that is hashed in one computation collides with another pair of the other one. -/
def NoCollision (m : Traced α) (n : Traced β) : Prop :=
  ∀ p ∈ m.pairs, ∀ q ∈ n.pairs, hashPair p.1 p.2 = hashPair q.1 q.2 → p = q

theorem noCollision_bind {α' β' : Type} {m : Traced α} {n : Traced β} {f : α → Traced α'}
    {g : β → Traced β'} (h : NoCollision (m >>= f) (n >>= g)) :
    NoCollision m n ∧ NoCollision (f m.result) (g n.result) := by
  constructor
  · intro p hp q hq
    exact h p (List.mem_append_left _ hp) q (List.mem_append_left _ hq)
  · intro p hp q hq
    exact h p (List.mem_append_right _ hp) q (List.mem_append_right _ hq)

theorem hash_inj {a b c d : Chunk} (h : NoCollision (hash a b) (hash c d))
    (hresult : hashPair a b = hashPair c d) : a = c ∧ b = d := by
  have hpair := h (a, b) List.mem_cons_self (c, d) List.mem_cons_self hresult
  exact Prod.mk.injEq .. ▸ hpair

theorem all_inj {f : α → Traced β} {as bs : List α}
    (h : NoCollision (all (as.map f)) (all (bs.map f)))
    (hresult : (all (as.map f)).result = (all (bs.map f)).result)
    (hinj : ∀ a ∈ as, ∀ b ∈ bs, NoCollision (f a) (f b) → (f a).result = (f b).result → a = b) :
    as = bs := by
  induction as generalizing bs with
  | nil =>
    cases bs with
    | nil => rfl
    | cons b bs => simp at hresult
  | cons a as ih =>
    cases bs with
    | nil => simp at hresult
    | cons b bs =>
      simp only [result_all, List.map_cons, List.cons.injEq] at hresult
      simp only [List.forall_mem_cons] at hinj
      obtain ⟨hfirst, hrest⟩ := noCollision_bind h
      obtain ⟨hrest, -⟩ := noCollision_bind hrest
      have hhead : a = b := hinj.1.1 hfirst hresult.1
      have htail : as = bs := by
        refine ih hrest ?_ fun x hx => (hinj.2 x hx).2
        simpa only [result_all] using hresult.2
      rw [hhead, htail]

theorem pairUp_inj {filler : Chunk} {a b : List Chunk} (hlength : a.length = b.length)
    (h : NoCollision (pairUp filler a) (pairUp filler b))
    (hresult : (pairUp filler a).result = (pairUp filler b).result) : a = b := by
  induction a using Ssz.pairUp.induct generalizing b with
  | case1 left right layer ih =>
    cases b with
    | nil => cases hlength
    | cons left' b =>
      cases b with
      | nil => cases hlength
      | cons right' layer' =>
        simp only [result_pairUp, Ssz.pairUp, List.cons.injEq] at hresult
        obtain ⟨hfirst, hrest⟩ := noCollision_bind h
        obtain ⟨hlater, -⟩ := noCollision_bind hrest
        obtain ⟨rfl, rfl⟩ := hash_inj hfirst hresult.1
        have hlayer : layer = layer' := by
          refine ih ?_ hlater ?_
          · simpa using hlength
          · simpa only [result_pairUp] using hresult.2
        rw [hlayer]
  | case2 left =>
    cases b with
    | nil => cases hlength
    | cons left' b =>
      cases b with
      | nil =>
        simp only [result_pairUp, Ssz.pairUp, List.cons.injEq, and_true] at hresult
        obtain ⟨hfirst, -⟩ := noCollision_bind h
        rw [(hash_inj hfirst hresult).1]
      | cons => cases hlength
  | case3 => exact (List.eq_nil_of_length_eq_zero hlength.symm).symm

/-- Equal tops come from equal layers, from one layer to the one below it. -/
theorem climb_inj {level count : Nat} {a b : List Chunk} (hlength : a.length = b.length)
    (hroom : a.length ≤ 2 ^ count) (h : NoCollision (climb level count a) (climb level count b))
    (hresult : (climb level count a).result = (climb level count b).result) : a = b := by
  induction count generalizing level a b with
  | zero =>
    match a, b with
    | [], [] => rfl
    | [x], [y] => exact congrArg (fun chunk => [chunk]) hresult
    | _ :: _ :: _, _ => simp at hroom
  | succ count ih =>
    obtain ⟨hfirst, hrest⟩ := noCollision_bind h
    rw [Nat.pow_succ] at hroom
    refine pairUp_inj hlength hfirst (ih ?_ ?_ hrest hresult)
    · simp only [result_pairUp, DenseTree.length_pairUp, hlength]
    · rw [result_pairUp, DenseTree.length_pairUp]
      omega

theorem tree_inj {limit : Nat} {a b : List Chunk} (hlimit : limit ≤ maxCount)
    (hroom : a.length ≤ limit) (hlength : a.length = b.length)
    (h : NoCollision (tree limit a) (tree limit b))
    (hresult : (tree limit a).result = (tree limit b).result) : a = b := by
  by_cases hzero : limit = 0
  · have ha : a.length = 0 := by omega
    have hb : b.length = 0 := hlength ▸ ha
    rw [List.eq_nil_of_length_eq_zero ha, List.eq_nil_of_length_eq_zero hb]
  · have hdepth := DenseTree.treeDepth_eq_clog (Shape.room_of_le_maxCount hlimit)
    have hpow : a.length ≤ 2 ^ treeDepth limit := by
      rw [hdepth]
      exact hroom.trans (Nat.le_pow_clog Nat.one_lt_two limit)
    simp only [tree, hzero, if_false] at h hresult
    exact climb_inj hlength hpow h hresult

theorem mixIn_inj {m n : Traced Chunk} {a b : Bytes} (hlength : a.length = b.length)
    (hroom : a.length ≤ bytesPerChunk) (h : NoCollision (m.mixIn a) (n.mixIn b))
    (hresult : (m.mixIn a).result = (n.mixIn b).result) :
    NoCollision m n ∧ m.result = n.result ∧ a = b := by
  obtain ⟨hroots, hlast⟩ := noCollision_bind h
  obtain ⟨hroot, hword⟩ := hash_inj hlast hresult
  exact ⟨hroots, hroot, padded_inj hlength hroom hword⟩

/-- A length that is mixed in is bound. -/
theorem mixIn_length_inj {m n : Traced Chunk} {count count' : Nat} (hcount : count ≤ maxCount)
    (hcount' : count' ≤ maxCount)
    (h : NoCollision (m.mixIn (littleEndian 8 count)) (n.mixIn (littleEndian 8 count')))
    (hresult : (m.mixIn (littleEndian 8 count)).result
      = (n.mixIn (littleEndian 8 count')).result) :
    NoCollision m n ∧ m.result = n.result ∧ count = count' := by
  have hlength : (littleEndian 8 count).length = (littleEndian 8 count').length := by
    rw [length_littleEndian, length_littleEndian]
  have hroom : (littleEndian 8 count).length ≤ bytesPerChunk := by
    rw [length_littleEndian]
    decide
  obtain ⟨hroots, hroot, hword⟩ := mixIn_inj hlength hroom h hresult
  exact ⟨hroots, hroot,
    littleEndian_inj (lt_of_le_maxCount hcount) (lt_of_le_maxCount hcount') hword⟩

theorem mixIn_selector_inj {m n : Traced Chunk} {selector selector' : UInt8}
    (h : NoCollision (m.mixIn [selector]) (n.mixIn [selector']))
    (hresult : (m.mixIn [selector]).result = (n.mixIn [selector']).result) :
    NoCollision m n ∧ m.result = n.result ∧ selector = selector' := by
  have hlength : [selector].length = [selector'].length := rfl
  have hroom : [selector].length ≤ bytesPerChunk := Nat.le_add_left 1 31
  obtain ⟨hroots, hroot, hword⟩ := mixIn_inj hlength hroom h hresult
  exact ⟨hroots, hroot, List.singleton_inj.1 hword⟩

end Traced

namespace Shape

open Traced (NoCollision)

/-! ## Packed contents -/

theorem bytes_inj {limit : Nat} {a b : Bytes} (hlimit : limit ≤ maxCount)
    (hroom : (packChunks a).length ≤ limit) (hlength : a.length = b.length)
    (h : NoCollision (Traced.tree limit (packChunks a)) (Traced.tree limit (packChunks b)))
    (hresult : (Traced.tree limit (packChunks a)).result
      = (Traced.tree limit (packChunks b)).result) : a = b := by
  refine packChunks_inj hlength (Traced.tree_inj hlimit hroom ?_ h hresult)
  rw [length_packChunks, length_packChunks, hlength]

theorem layout_scalar_inj {element : Shape} {v w : Value} (hbasic : element.isBasic = true)
    (hv : element.check v = .ok ()) (hw : element.check w = .ok ())
    (h : element.layout v = element.layout w) : v = w := by
  cases element with
  | bool =>
    obtain ⟨b, rfl⟩ := check_bool.1 hv
    obtain ⟨c, rfl⟩ := check_bool.1 hw
    cases b <;> cases c <;> simp_all [layout]
  | uint width =>
    obtain ⟨m, rfl⟩ := check_uint.1 hv
    obtain ⟨n, rfl⟩ := check_uint.1 hw
    rw [layout_uint, layout_uint] at h
    have hbits : ∀ k : BitVec width.bits, k.toNat < 256 ^ width.bytes := fun k =>
      lt_of_lt_of_eq k.isLt width.two_pow_bits
    rw [BitVec.eq_of_toNat_eq (littleEndian_inj (hbits m) (hbits n) h)]
  | _ => cases hbasic

theorem scalar_inj {element : Shape} {v w : Value} (hbasic : element.isBasic = true)
    (hv : element.check v = .ok ()) (hw : element.check w = .ok ())
    (h : ByteVector.padded bytesPerChunk (element.layout v)
      = ByteVector.padded bytesPerChunk (element.layout w)) : v = w := by
  obtain ⟨-, hlengthv⟩ := scalarBytes_eq_layout hbasic hv
  obtain ⟨-, hlengthw⟩ := scalarBytes_eq_layout hbasic hw
  obtain ⟨-, hroom, -⟩ := prefixSize_bounds hbasic
  exact layout_scalar_inj hbasic hv hw
    (padded_inj (hlengthv.trans hlengthw.symm) (hlengthv.trans_le hroom) h)

/-! ## Composites -/

theorem packed_items_inj {element : Shape} {items others : List Value}
    (hbasic : element.isBasic = true) (hitems : ∀ item ∈ items, element.check item = .ok ())
    (hothers : ∀ other ∈ others, element.check other = .ok ())
    (hlength : items.length = others.length)
    (h : packChunks (items.map fun item => element.layout item).flatten
      = packChunks (others.map fun other => element.layout other).flatten) : items = others := by
  have hflatten : (items.map fun item => element.layout item).flatten
      = (others.map fun other => element.layout other).flatten := by
    refine packChunks_inj ?_ h
    rw [length_flatten_layout hbasic hitems, length_flatten_layout hbasic hothers, hlength]
  have hsize : ∀ values : List Value, (∀ v ∈ values, element.check v = .ok ()) →
      ∀ part ∈ values.map fun v => element.layout v, part.length = element.prefixSize := by
    intro values hvalues part hpart
    obtain ⟨v, hv, rfl⟩ := List.mem_map.1 hpart
    exact (scalarBytes_eq_layout hbasic (hvalues v hv)).2
  have hparts : (items.map fun item => element.layout item)
      = others.map fun other => element.layout other := by
    rw [← pieces_flatten (hsize items hitems), ← pieces_flatten (hsize others hothers), hflatten,
      List.length_map, List.length_map, hlength]
  refine eq_of_map_eq hparts ?_
  intro item hitem other hother heq
  exact layout_scalar_inj hbasic (hitems item hitem) (hothers other hother) heq

/-- What the two traces of an item show of it. -/
abbrev Binds (shape : Shape) (v w : Value) : Prop :=
  NoCollision (shape.trace v) (shape.trace w) →
    (shape.trace v).result = (shape.trace w).result → v = w

theorem sequence_inj {element : Shape} {capacity : Nat} {items others : List Value}
    (hbound : capacity * element.weight ≤ maxCount) (hcount : items.length ≤ capacity)
    (hlength : items.length = others.length)
    (hitems : ∀ item ∈ items, element.check item = .ok ())
    (hothers : ∀ other ∈ others, element.check other = .ok ())
    (hbinds : ∀ item ∈ items, ∀ other ∈ others, element.Binds item other)
    (h : NoCollision (itemsRoot element capacity items element.trace)
      (itemsRoot element capacity others element.trace))
    (hresult : (itemsRoot element capacity items element.trace).result
      = (itemsRoot element capacity others element.trace).result) : items = others := by
  have hroom := Nat.mul_le_mul_right element.weight hcount |>.trans hbound
  obtain ⟨hleaves, htree⟩ := Traced.noCollision_bind h
  have heq := by
    refine Traced.tree_inj (room_le_maxCount hbound)
      (itemLeaves_le_room _ hitems hcount hbound) ?_ htree hresult
    rw [length_itemLeaves _ hitems hroom, length_itemLeaves _ hothers (hlength ▸ hroom), hlength]
  unfold itemLeaves at hleaves heq
  split at heq
  · rename_i hbasic
    exact packed_items_inj hbasic hitems hothers hlength heq
  · rename_i hbasic
    rw [if_neg hbasic, if_neg hbasic] at hleaves
    exact Traced.all_inj hleaves heq hbinds

theorem length_traceFields {fields : List (Field Shape)} {values : List Value}
    (h : values.length = fields.length) :
    (traceFields fields values).result.length = fields.length := by
  induction fields generalizing values with
  | nil => rfl
  | cons field fields ih =>
    cases values with
    | nil => cases h
    | cons v values => simpa [traceFields] using ih (Nat.succ.inj h)

theorem fields_inj {fields : List (Field Shape)} {values others : List Value}
    (hvalues : List.Forall₂ (fun field v => field.shape.check v = .ok ()) fields values)
    (hothers : List.Forall₂ (fun field v => field.shape.check v = .ok ()) fields others)
    (hbinds : ∀ field ∈ fields, ∀ v w, field.shape.check v = .ok () →
      field.shape.check w = .ok () → field.shape.Binds v w)
    (h : NoCollision (traceFields fields values) (traceFields fields others))
    (hresult : (traceFields fields values).result = (traceFields fields others).result) :
    values = others := by
  induction hvalues generalizing others with
  | nil =>
    cases hothers
    rfl
  | @cons field v fields values hv _ ih =>
    cases hothers with
    | @cons _ w _ others hw hothers =>
      simp only [List.forall_mem_cons] at hbinds
      simp only [traceFields, Traced.result_bind, Traced.result_pure, List.cons.injEq] at hresult
      obtain ⟨hfirst, hrest⟩ := Traced.noCollision_bind h
      obtain ⟨hlater, -⟩ := Traced.noCollision_bind hrest
      have hhead : v = w := hbinds.1 v w hv hw hfirst hresult.1
      have htail : values = others := ih hothers hbinds.2 hlater hresult.2
      rw [hhead, htail]

/-! ## Shape by shape -/

theorem byteList_inj {max : Nat} {a b : Bytes} (hbound : max ≤ maxCount) (ha : a.length ≤ max)
    (hb : b.length ≤ max) : Binds (.byteList max) (.bytes a) (.bytes b) := by
  intro h hresult
  obtain ⟨hcontent, hroot, hlength⟩ :=
    Traced.mixIn_length_inj (ha.trans hbound) (hb.trans hbound) h hresult
  have hlimit : chunkCount max 1 ≤ maxCount := by
    rw [chunkCount_bytes hbound]
    omega
  rw [bytes_inj hlimit (length_packChunks_le ha hbound) hlength hcontent hroot]

theorem bits_inj {limit : Nat} {a b : Bits} (hlimit : limit ≤ maxCount)
    (hroom : (packChunks a.bytes).length ≤ limit) (hlength : a.length = b.length)
    (h : NoCollision (Traced.tree limit (packChunks a.bytes))
      (Traced.tree limit (packChunks b.bytes)))
    (hresult : (Traced.tree limit (packChunks a.bytes)).result
      = (Traced.tree limit (packChunks b.bytes)).result) : a = b := by
  have hbytes : a.bytes.length = b.bytes.length := by
    rw [a.length_bytes, b.length_bytes, hlength]
  exact Bits.ext hlength (bytes_inj hlimit hroom hbytes h hresult)

theorem bitList_inj {max : Nat} {a b : Bits} (hbound : max ≤ maxCount) (ha : a.length ≤ max)
    (hb : b.length ≤ max) : Binds (.bitList max) (.bits a) (.bits b) := by
  intro h hresult
  obtain ⟨hcontent, hroot, hlength⟩ :=
    Traced.mixIn_length_inj (ha.trans hbound) (hb.trans hbound) h hresult
  have hlimit : ceilDiv max bitsPerChunk ≤ maxCount := by
    rw [ceilDiv_bits]
    exact bits_room hbound
  rw [bits_inj hlimit (length_packChunks_bits_le ha) hlength hcontent hroot]

theorem list_inj {element : Shape} {max : Nat} {items others : List Value}
    (hbound : max * element.weight ≤ maxCount) (hitems : items.length ≤ max)
    (hothers : others.length ≤ max) (hcheck : ∀ item ∈ items, element.check item = .ok ())
    (hcheck' : ∀ other ∈ others, element.check other = .ok ())
    (hbinds : ∀ item ∈ items, ∀ other ∈ others, element.Binds item other) :
    Binds (.list element max) (.list items) (.list others) := by
  intro h hresult
  have hmax : max ≤ maxCount := (Nat.le_mul_of_pos_right max element.weight_pos).trans hbound
  obtain ⟨hcontent, hroot, hlength⟩ :=
    Traced.mixIn_length_inj (hitems.trans hmax) (hothers.trans hmax) h hresult
  rw [sequence_inj hbound hitems hlength hcheck hcheck' hbinds hcontent hroot]

theorem container_inj {name : String} {fields : List (Field Shape)} {values others : List Value}
    (hbound : fields.length ≤ maxCount)
    (hvalues : List.Forall₂ (fun field v => field.shape.check v = .ok ()) fields values)
    (hothers : List.Forall₂ (fun field v => field.shape.check v = .ok ()) fields others)
    (hbinds : ∀ field ∈ fields, ∀ v w, field.shape.check v = .ok () →
      field.shape.check w = .ok () → field.shape.Binds v w) :
    Binds (.container name fields) (.container values) (.container others) := by
  intro h hresult
  have hlength := length_traceFields hvalues.length_eq.symm
  have hlength' := length_traceFields hothers.length_eq.symm
  obtain ⟨hroots, htree⟩ := Traced.noCollision_bind h
  simp only [trace, Traced.result_bind, hlength, hlength'] at hresult htree
  have hleaves := Traced.tree_inj hbound (Nat.le_of_eq hlength) (hlength.trans hlength'.symm)
    htree hresult
  rw [fields_inj hvalues hothers hbinds hroots hleaves]

theorem union_inj {alternatives : List (Option Shape)} {v w : Value}
    (hv : check (.union alternatives) v = .ok ()) (hw : check (.union alternatives) w = .ok ())
    (hbinds : ∀ shape, some shape ∈ alternatives → ∀ v w, shape.check v = .ok () →
      shape.check w = .ok () → shape.Binds v w) : Binds (.union alternatives) v w := by
  intro h hresult
  obtain ⟨rfl, hnone⟩ | ⟨selector, shape, inner, rfl, hshape, hinner⟩ := check_union.1 hv <;>
    obtain ⟨rfl, hnone'⟩ | ⟨selector', shape', inner', rfl, hshape', hinner'⟩ := check_union.1 hw
  · rfl
  · obtain ⟨-, -, hselector⟩ := Traced.mixIn_selector_inj h hresult
    cases hselector
    rw [show (0 : UInt8).toNat = 0 from rfl, hnone] at hshape'
    cases hshape'
  · obtain ⟨-, -, hselector⟩ := Traced.mixIn_selector_inj h hresult
    cases hselector
    rw [show (0 : UInt8).toNat = 0 from rfl, hnone'] at hshape
    cases hshape
  · obtain ⟨hcontent, hroot, hselector⟩ := Traced.mixIn_selector_inj h hresult
    cases hselector
    rw [hshape] at hshape'
    cases hshape'
    rw [traceChosen_some hshape, traceChosen_some hshape] at hcontent hroot
    have hmem := List.mem_of_getElem? hshape
    rw [hbinds shape hmem inner inner' hinner hinner' hcontent hroot]

theorem binds_of_check {shape : Shape} {v w : Value} (hv : shape.check v = .ok ())
    (hw : shape.check w = .ok ()) (hbounded : shape.Bounded) : shape.Binds v w := by
  induction shape generalizing v w with
  | bool => exact fun _ => scalar_inj rfl hv hw
  | uint width => exact fun _ => scalar_inj rfl hv hw
  | byteVector length =>
    obtain ⟨a, rfl, rfl⟩ := check_byteVector.1 hv
    obtain ⟨b, rfl, hlength⟩ := check_byteVector.1 hw
    cases hbounded with
    | byteVector hbound =>
      intro h hresult
      have hlimit : chunkCount a.length 1 ≤ maxCount := by
        rw [chunkCount_bytes hbound]
        omega
      have hroom := length_packChunks_le (Nat.le_refl a.length) hbound
      rw [bytes_inj hlimit hroom hlength.symm h hresult]
  | byteList max =>
    obtain ⟨a, rfl, ha⟩ := check_byteList.1 hv
    obtain ⟨b, rfl, hb⟩ := check_byteList.1 hw
    cases hbounded with
    | byteList hbound => exact byteList_inj hbound ha hb
  | bitVector length =>
    obtain ⟨a, rfl, rfl⟩ := check_bitVector.1 hv
    obtain ⟨b, rfl, hlength⟩ := check_bitVector.1 hw
    cases hbounded with
    | bitVector hbound =>
      intro h hresult
      have hlimit : ceilDiv a.length bitsPerChunk ≤ maxCount := by
        rw [ceilDiv_bits]
        exact bits_room hbound
      have hroom := length_packChunks_bits_le (Nat.le_refl a.length)
      rw [bits_inj hlimit hroom hlength.symm h hresult]
  | bitList max =>
    obtain ⟨a, rfl, ha⟩ := check_bitList.1 hv
    obtain ⟨b, rfl, hb⟩ := check_bitList.1 hw
    cases hbounded with
    | bitList hbound => exact bitList_inj hbound ha hb
  | vector element length ih =>
    obtain ⟨items, rfl, rfl, hitems⟩ := check_vector.1 hv
    obtain ⟨others, rfl, hlength, hothers⟩ := check_vector.1 hw
    cases hbounded with
    | vector hbound helement =>
      intro h hresult
      have hbinds := fun item hitem other hother =>
        ih (hitems item hitem) (hothers other hother) helement
      rw [sequence_inj hbound (Nat.le_refl _) hlength.symm hitems hothers hbinds h hresult]
  | list element max ih =>
    obtain ⟨items, rfl, hmax, hitems⟩ := check_list.1 hv
    obtain ⟨others, rfl, hmax', hothers⟩ := check_list.1 hw
    cases hbounded with
    | list hbound helement =>
      have hbinds := fun item hitem other hother =>
        ih (hitems item hitem) (hothers other hother) helement
      exact list_inj hbound hmax hmax' hitems hothers hbinds
  | container name fields ih =>
    obtain ⟨values, rfl, hvalues⟩ := check_container.1 hv
    obtain ⟨others, rfl, hothers⟩ := check_container.1 hw
    cases hbounded with
    | container hbound hfields =>
      refine container_inj hbound hvalues hothers ?_
      intro field hfield v w hv hw
      exact ih field hfield hv hw (hfields field hfield)
  | union alternatives ih =>
    cases hbounded with
    | union hshapes =>
      exact union_inj hv hw fun shape hmem v w hv hw => ih shape hmem hv hw (hshapes shape hmem)

/-- The pairs of chunks that are hashed to compute the root of a value. -/
def hashedPairs (shape : Shape) (v : Value) : List (Chunk × Chunk) := (shape.trace v).pairs

end Shape

/-- Values with the same root are the same, unless two different pairs of chunks that were hashed
    for these two roots have the same hash. -/
theorem eq_of_hashTreeRoot_eq {shape : Shape} {v w : Value} (hv : shape.check v = .ok ())
    (hw : shape.check w = .ok ()) (hbounded : shape.Bounded)
    (hfree : CollisionFree (shape.hashedPairs v ++ shape.hashedPairs w))
    (hroot : hashTreeRoot shape v = hashTreeRoot shape w) : v = w := by
  have hresult : (shape.trace v).result = (shape.trace w).result := by
    rw [hashTreeRoot_eq_trace hv hbounded, hashTreeRoot_eq_trace hw hbounded] at hroot
    exact Except.ok.inj hroot
  have hnone : Traced.NoCollision (shape.trace v) (shape.trace w) := by
    intro p hp q hq
    exact hfree p (List.mem_append_left _ hp) q (List.mem_append_right _ hq)
  exact Shape.binds_of_check hv hw hbounded hnone hresult

/-- A list and the same list with a zero behind it have the same leaves, but not the same root. -/
theorem eq_of_hashTreeRoot_eq_zero_behind :
    let shape : Shape := .list (.uint .u64) 4
    let v : Value := .list [.uint .u64 1]
    let w : Value := .list [.uint .u64 1, .uint .u64 0]
    let leaf : Chunk := .padded _ [1]
    shape.hashedPairs v = [(leaf, .padded _ [1])] ∧
      shape.hashedPairs w = [(leaf, .padded _ [2])] ∧
      CollisionFree (shape.hashedPairs v ++ shape.hashedPairs w) ∧
      hashTreeRoot shape v ≠ hashTreeRoot shape w := by
  intro shape v w leaf
  have hpairs : shape.hashedPairs v = [(leaf, .padded _ [1])] := by rfl
  have hpairs' : shape.hashedPairs w = [(leaf, .padded _ [2])] := by rfl
  have hfree : CollisionFree (shape.hashedPairs v ++ shape.hashedPairs w) := by decide +kernel
  refine ⟨hpairs, hpairs', hfree, fun hroot => ?_⟩
  have heq : v = w :=
    eq_of_hashTreeRoot_eq (by rfl) (by rfl) (.list (by decide) .uint) hfree hroot
  exact absurd heq (by decide)

end Ssz
