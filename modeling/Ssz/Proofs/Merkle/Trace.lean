-- SUMMARY: The pairs of chunks that are hashed on the way to the root of a value.
import Ssz.Proofs.Merkle.Digest

/-!
# Traced roots

A traced computation keeps every pair of chunks that it hashes, in order. The
root of a value is computed here once more in this way, step by step as the
hasher does it: only the chunks that are there are paired up, and what is taken
from the table of zero subtrees is not hashed again. The traced root is the root.
-/

namespace Ssz

/-- A result with the pairs of chunks that were hashed on the way to it. -/
structure Traced (α : Type) where
  result : α
  pairs : List (Chunk × Chunk)

namespace Traced

/-! ## Tracing -/

variable {α β : Type}

instance : Monad Traced where
  pure a := ⟨a, []⟩
  bind m f := ⟨(f m.result).result, m.pairs ++ (f m.result).pairs⟩

@[simp] theorem result_pure (a : α) : (pure a : Traced α).result = a := rfl

@[simp] theorem pairs_pure (a : α) : (pure a : Traced α).pairs = [] := rfl

@[simp] theorem result_bind (m : Traced α) (f : α → Traced β) :
    (m >>= f).result = (f m.result).result := rfl

@[simp] theorem pairs_bind (m : Traced α) (f : α → Traced β) :
    (m >>= f).pairs = m.pairs ++ (f m.result).pairs := rfl

/-- Hash a pair of chunks. -/
def hash (left right : Chunk) : Traced Chunk := ⟨hashPair left right, [(left, right)]⟩

@[simp] theorem result_hash (left right : Chunk) : (hash left right).result = hashPair left right :=
  rfl

@[simp] theorem pairs_hash (left right : Chunk) : (hash left right).pairs = [(left, right)] := rfl

/-- One computation after the other. -/
def all : List (Traced α) → Traced (List α)
  | [] => pure []
  | m :: ms => do return (← m) :: (← all ms)

@[simp] theorem result_all (ms : List (Traced α)) : (all ms).result = ms.map result := by
  induction ms with
  | nil => rfl
  | cons m ms ih => simp [all, ih]

/-! ## Trees -/

/-- The layer above; a last node without a partner is paired with `filler`. -/
def pairUp (filler : Chunk) : List Chunk → Traced (List Chunk)
  | left :: right :: layer => do return (← hash left right) :: (← pairUp filler layer)
  | [left] => do return [← hash left filler]
  | [] => pure []

/-- The top of a tree from its layer at `level`, after `count` more layers. -/
def climb (level : Nat) : (count : Nat) → (layer : List Chunk) → Traced Chunk
  | 0, layer => pure (layer.headD (zeroRoot level))
  | count + 1, layer => do climb (level + 1) count (← pairUp (zeroRoot level) layer)

/-- The root of the tree with room for `limit` leaves that starts with these. -/
def tree (limit : Nat) (leaves : List Chunk) : Traced Chunk :=
  if limit = 0 then pure (.zero _) else climb 0 (treeDepth limit) leaves

/-- Bind a root to a length or a selector. -/
def mixIn (root : Traced Chunk) (word : Bytes) : Traced Chunk := do hash (← root) (.padded _ word)

@[simp] theorem result_mixIn (root : Traced Chunk) (word : Bytes) :
    (root.mixIn word).result = hashPair root.result (.padded _ word) := rfl

@[simp] theorem result_pairUp (filler : Chunk) (layer : List Chunk) :
    (pairUp filler layer).result = Ssz.pairUp filler layer := by
  induction layer using Ssz.pairUp.induct with
  | case1 left right layer ih => simp [pairUp, Ssz.pairUp, ih]
  | case2 left => rfl
  | case3 => rfl

@[simp] theorem result_climb (level count : Nat) (layer : List Chunk) :
    (climb level count layer).result = Ssz.climb level count layer := by
  induction count generalizing level layer with
  | zero => rfl
  | succ count ih => simp [climb, Ssz.climb, ih]

theorem merkleize_eq_tree {chunks : List Chunk} {limit : Nat} (h : chunks.length ≤ limit) :
    merkleize chunks limit = .ok (tree limit chunks).result := by
  unfold merkleize tree
  rw [if_neg (Nat.not_lt.2 h)]
  split
  · rfl
  · cases chunks with
    | nil => simp [DenseTree.climb_nil]
    | cons chunk chunks => simp

end Traced

namespace Shape

/-! ## Roots -/

/-- How many leaves a sequence has room for under a capacity. -/
def room (element : Shape) (capacity : Nat) : Nat :=
  if element.isBasic then chunkCount capacity (element.fixedSize?.getD bytesPerChunk) else capacity

/-- The leaves over the items of a sequence: scalars are packed, and of anything else the root is
    computed by `trace`. -/
def itemLeaves (element : Shape) (items : List Value) (trace : Value → Traced Chunk) :
    Traced (List Chunk) :=
  if element.isBasic then pure (packChunks (items.map fun item => element.layout item).flatten)
  else .all (items.map trace)

/-- The root over the items of a sequence, in a tree with room for `capacity` of them. -/
def itemsRoot (element : Shape) (capacity : Nat) (items : List Value)
    (trace : Value → Traced Chunk) : Traced Chunk := do
  Traced.tree (element.room capacity) (← itemLeaves element items trace)

mutual

/-- The root of a well-formed value, with the pairs that are hashed for it. -/
def trace : Shape → Value → Traced Chunk
  | .bool, v => pure (.padded _ (layout .bool v))
  | .uint width, v => pure (.padded _ (layout (.uint width) v))
  | .byteVector length, .bytes contents => .tree (chunkCount length 1) (packChunks contents)
  | .byteList max, .bytes contents =>
    (Traced.tree (chunkCount max 1) (packChunks contents)).mixIn (littleEndian 8 contents.length)
  | .bitVector length, .bits contents =>
    .tree (ceilDiv length bitsPerChunk) (packChunks contents.bytes)
  | .bitList max, .bits contents =>
    (Traced.tree (ceilDiv max bitsPerChunk) (packChunks contents.bytes)).mixIn
      (littleEndian 8 contents.length)
  | .vector element length, .list items =>
    itemsRoot element length items fun item => element.trace item
  | .list element max, .list items =>
    (itemsRoot element max items fun item => element.trace item).mixIn
      (littleEndian 8 items.length)
  | .container _ fields, .container values => do
    let roots ← traceFields fields values
    Traced.tree roots.length roots
  | .union alternatives, .union selector inner =>
    (traceChosen alternatives selector.toNat inner).mixIn [selector]
  | _, _ => pure (.zero _)
termination_by structural shape => shape

def traceFields : List (Field Shape) → List Value → Traced (List Chunk)
  | ⟨_, _, shape⟩ :: fields, v :: values => do
    return (← shape.trace v) :: (← traceFields fields values)
  | _, _ => pure []
termination_by structural fields => fields

/-- The empty alternative has the zero chunk. -/
def traceChosen :
    (alternatives : List (Option Shape)) → (index : Nat) → Option Value → Traced Chunk
  | some shape :: _, 0, some inner => shape.trace inner
  | _ :: alternatives, index + 1, inner => traceChosen alternatives index inner
  | _, _, _ => pure (.zero _)
termination_by structural alternatives => alternatives

end

/-! ## Numbers of leaves -/

theorem length_packChunks (bytes : Bytes) :
    (packChunks bytes).length = (bytes.length + 31) / 32 := by
  rw [packChunks_eq_leaves, length_leaves]

theorem room_eq {element : Shape} {capacity : Nat} (h : capacity * element.weight ≤ maxCount) :
    element.room capacity
      = if element.isBasic then (capacity * element.prefixSize + 31) / 32 else capacity := by
  unfold room
  unfold weight at h
  split
  · rename_i hbasic
    obtain ⟨-, -, hsize⟩ := prefixSize_bounds hbasic
    rw [if_pos hbasic] at h
    rw [hsize, chunkCount_eq h]
  · rfl

theorem room_le_room {element : Shape} {count capacity : Nat} (hle : count ≤ capacity)
    (h : capacity * element.weight ≤ maxCount) : element.room count ≤ element.room capacity := by
  have hmul := Nat.mul_le_mul_right element.weight hle
  rw [room_eq (hmul.trans h), room_eq h]
  split
  · have hmul := Nat.mul_le_mul_right element.prefixSize hle
    omega
  · exact hle

theorem room_le_maxCount {element : Shape} {capacity : Nat}
    (h : capacity * element.weight ≤ maxCount) : element.room capacity ≤ maxCount := by
  rw [room_eq h]
  unfold weight at h
  split
  · rename_i hbasic
    rw [if_pos hbasic] at h
    omega
  · rename_i hbasic
    rwa [if_neg hbasic, Nat.mul_one] at h

/-- A sequence has as many leaves as there is room for under its own length. -/
theorem length_itemLeaves {element : Shape} {items : List Value} (trace : Value → Traced Chunk)
    (hitems : ∀ item ∈ items, element.check item = .ok ())
    (h : items.length * element.weight ≤ maxCount) :
    (itemLeaves element items trace).result.length = element.room items.length := by
  rw [room_eq h, itemLeaves]
  split
  · rename_i hbasic
    rw [Traced.result_pure, length_packChunks, length_flatten_layout hbasic hitems]
  · simp

theorem itemLeaves_le_room {element : Shape} {items : List Value} {capacity : Nat}
    (trace : Value → Traced Chunk) (hitems : ∀ item ∈ items, element.check item = .ok ())
    (hcount : items.length ≤ capacity) (h : capacity * element.weight ≤ maxCount) :
    (itemLeaves element items trace).result.length ≤ element.room capacity := by
  have hmul := Nat.mul_le_mul_right element.weight hcount
  rw [length_itemLeaves trace hitems (hmul.trans h)]
  exact room_le_room hcount h

/-! ## The traced root is the root -/

theorem merkleize_itemLeaves {element : Shape} {items : List Value} {capacity : Nat}
    (hitems : ∀ item ∈ items, element.check item = .ok ()) (hcount : items.length ≤ capacity)
    (h : capacity * element.weight ≤ maxCount) :
    merkleize (itemLeaves element items element.trace).result
        (element.room capacity)
      = .ok (itemsRoot element capacity items element.trace).result :=
  Traced.merkleize_eq_tree (itemLeaves_le_room _ hitems hcount h)

theorem packedRoot_eq_trace {element : Shape} {items : List Value} {capacity : Nat}
    (hbasic : element.isBasic = true) (hitems : ∀ item ∈ items, element.check item = .ok ())
    (hcount : items.length ≤ capacity) (h : capacity * element.weight ≤ maxCount) :
    packedRoot items (element.fixedSize?.getD bytesPerChunk) capacity
      = .ok (itemsRoot element capacity items element.trace).result := by
  obtain ⟨-, -, hsize⟩ := prefixSize_bounds hbasic
  rw [← merkleize_itemLeaves hitems hcount h, itemLeaves, room, if_pos hbasic, if_pos hbasic,
    packedRoot_eq_merkleize hbasic hitems, hsize]
  rfl

theorem merkleize_roots_eq_trace {element : Shape} {items : List Value} {capacity : Nat}
    (hbasic : ¬element.isBasic = true) (hitems : ∀ item ∈ items, element.check item = .ok ())
    (hcount : items.length ≤ capacity) (h : capacity * element.weight ≤ maxCount) :
    merkleize (items.map fun item => (element.trace item).result) capacity
      = .ok (itemsRoot element capacity items element.trace).result := by
  rw [← merkleize_itemLeaves hitems hcount h, itemLeaves, room, if_neg hbasic, if_neg hbasic,
    Traced.result_all, List.map_map]
  rfl

theorem fieldRoots_eq_trace {fields : List (Field Shape)} {values : List Value}
    (h : List.Forall₂ (fun field v => field.shape.root v = .ok (field.shape.trace v).result)
      fields values) : fieldRoots fields values = .ok (traceFields fields values).result := by
  induction h with
  | nil => rfl
  | @cons field v fields values hv _ ih =>
    rw [fieldRoots, hv, ih]
    rfl

theorem traceChosen_none (alternatives : List (Option Shape)) (index : Nat) :
    traceChosen alternatives index none = pure (.zero _) := by
  induction alternatives generalizing index with
  | nil => rfl
  | cons choice alternatives ih =>
    cases index with
    | zero => cases choice <;> rfl
    | succ index => cases choice <;> exact ih index

theorem traceChosen_some {alternatives : List (Option Shape)} {index : Nat} {shape : Shape}
    (hshape : alternatives[index]? = some (some shape)) (inner : Value) :
    traceChosen alternatives index (some inner) = shape.trace inner := by
  refine chosen_induction hshape ?_ ?_
  · intro rest
    rfl
  · intro choice rest index ih
    cases choice <;> exact ih

theorem chosenRoot_empty (alternatives : List (Option Shape)) (index : Nat) :
    chosenRoot alternatives index none = .ok (.zero _) := by
  induction alternatives generalizing index with
  | nil => rfl
  | cons choice alternatives ih =>
    cases index with
    | zero => cases choice <;> rfl
    | succ index => cases choice <;> exact ih index

theorem chosenRoot_eq_root {alternatives : List (Option Shape)} {index : Nat} {shape : Shape}
    (hshape : alternatives[index]? = some (some shape)) (inner : Value) :
    chosenRoot alternatives index (some inner) = shape.root inner := by
  refine chosen_induction hshape ?_ ?_
  · intro rest
    rfl
  · intro choice rest index ih
    cases choice <;> exact ih

theorem root_scalar_eq_trace {element : Shape} {v : Value} (hbasic : element.isBasic = true)
    (hcheck : element.check v = .ok ()) : element.root v = .ok (element.trace v).result := by
  obtain ⟨hbytes, -⟩ := scalarBytes_eq_layout hbasic hcheck
  cases element with
  | bool | uint width =>
    rw [root, hbytes]
    rfl
  | _ => cases hbasic

/-- Packed contents within a maximum fit the tree over the maximum. -/
theorem length_packChunks_le {contents : Bytes} {max : Nat} (hmax : contents.length ≤ max)
    (hbound : max ≤ maxCount) : (packChunks contents).length ≤ chunkCount max 1 := by
  rw [length_packChunks, chunkCount_bytes hbound]
  exact Nat.div_le_div_right (Nat.add_le_add_right hmax 31)

theorem length_packChunks_bits_le {contents : Bits} {max : Nat} (hmax : contents.length ≤ max) :
    (packChunks contents.bytes).length ≤ ceilDiv max bitsPerChunk := by
  rw [length_packChunks, ceilDiv_bits, ← chunks_of_bits]
  exact Nat.div_le_div_right (Nat.add_le_add_right hmax 255)

theorem root_eq_trace {shape : Shape} {v : Value} (hcheck : shape.check v = .ok ())
    (hbounded : shape.Bounded) : shape.root v = .ok (shape.trace v).result := by
  induction shape generalizing v with
  | bool => exact root_scalar_eq_trace rfl hcheck
  | uint width => exact root_scalar_eq_trace rfl hcheck
  | byteVector length =>
    obtain ⟨contents, rfl, rfl⟩ := check_byteVector.1 hcheck
    cases hbounded with
    | byteVector hbound =>
      exact Traced.merkleize_eq_tree (length_packChunks_le (Nat.le_refl _) hbound)
  | byteList max =>
    obtain ⟨contents, rfl, hmax⟩ := check_byteList.1 hcheck
    cases hbounded with
    | byteList hbound =>
      rw [root, Traced.merkleize_eq_tree (length_packChunks_le hmax hbound)]
      rfl
  | bitVector length =>
    obtain ⟨contents, rfl, rfl⟩ := check_bitVector.1 hcheck
    exact Traced.merkleize_eq_tree (length_packChunks_bits_le (Nat.le_refl _))
  | bitList max =>
    obtain ⟨contents, rfl, hmax⟩ := check_bitList.1 hcheck
    rw [root, Traced.merkleize_eq_tree (length_packChunks_bits_le hmax)]
    rfl
  | vector element length ih =>
    obtain ⟨items, rfl, rfl, hitems⟩ := check_vector.1 hcheck
    cases hbounded with
    | vector hbound helement =>
      have hroots := fun item hitem => ih (hitems item hitem) helement
      rw [root]
      split
      · rename_i hbasic
        exact packedRoot_eq_trace hbasic hitems (Nat.le_refl _) hbound
      · rename_i hbasic
        rw [mapM_eq_ok_map hroots]
        exact merkleize_roots_eq_trace hbasic hitems (Nat.le_refl _) hbound
  | list element max ih =>
    obtain ⟨items, rfl, hmax, hitems⟩ := check_list.1 hcheck
    cases hbounded with
    | list hbound helement =>
      have hroots := fun item hitem => ih (hitems item hitem) helement
      rw [root]
      split
      · rename_i hbasic
        rw [packedRoot_eq_trace hbasic hitems hmax hbound]
        rfl
      · rename_i hbasic
        have htree := merkleize_roots_eq_trace hbasic hitems hmax hbound
        exact bind_eq_ok.2 ⟨_, mapM_eq_ok_map hroots, bind_eq_ok.2 ⟨_, htree, rfl⟩⟩
  | container name fields ih =>
    obtain ⟨values, rfl, hvalues⟩ := check_container.1 hcheck
    cases hbounded with
    | container hbound hfields =>
      have hroots := forall₂_imp_of_mem hvalues fun field hfield v hv =>
        ih field hfield hv (hfields field hfield)
      rw [root, fieldRoots_eq_trace hroots]
      exact Traced.merkleize_eq_tree (Nat.le_refl _)
  | union alternatives ih =>
    cases hbounded with
    | union hshapes =>
      obtain ⟨rfl, -⟩ | ⟨selector, shape, inner, rfl, hshape, hinner⟩ := check_union.1 hcheck
      · rw [root, chosenRoot_empty, trace, traceChosen_none]
        rfl
      · have hmem := List.mem_of_getElem? hshape
        rw [root, chosenRoot_eq_root hshape, ih shape hmem hinner (hshapes shape hmem), trace,
          traceChosen_some hshape]
        rfl

end Shape

/-- A well-formed value is hashed to its traced root. -/
theorem hashTreeRoot_eq_trace {shape : Shape} {v : Value} (hcheck : shape.check v = .ok ())
    (hbounded : shape.Bounded) : hashTreeRoot shape v = .ok (shape.trace v).result := by
  rw [hashTreeRoot_of_check hcheck]
  exact Shape.root_eq_trace hcheck hbounded

end Ssz
