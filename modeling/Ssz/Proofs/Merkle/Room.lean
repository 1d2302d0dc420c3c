-- SUMMARY: Every well-formed value that a machine can hold has a root, whatever its capacities are.
import Ssz.Proofs.Merkle.Trace

/-!
# Room for the leaves

The tree of a value has room for the capacity of its shape, and the check keeps
the value within the capacity. The one thing that could still go wrong is the
count of leaves, which stops at the largest number of 64 bits. So the law below
asks nothing of the shape: it is enough that the value itself is no larger than
such a number can say.
-/

namespace Ssz

/-- A machine with 64-bit counts can hold the value. An element of a list takes more than 32 bytes,
    so that the scalars in a list can be counted in bytes. -/
inductive Value.Storable : Value → Prop
  | bool {b} : Storable (.bool b)
  | uint {width n} : Storable (.uint width n)
  | bytes {contents} : contents.length ≤ maxCount → Storable (.bytes contents)
  | bits {contents} : Storable (.bits contents)
  | list {items} : items.length * 32 ≤ maxCount → (∀ item ∈ items, Storable item) →
      Storable (.list items)
  | container {fields} : (∀ v ∈ fields, Storable v) → Storable (.container fields)
  | union {selector inner} : (∀ v, inner = some v → Storable v) → Storable (.union selector inner)

namespace Shape

/-- Bytes within a capacity are within its count of leaves, even if that count is cut off. -/
theorem chunks_le_chunkCount {length count size : Nat} (hcount : length ≤ count * size)
    (hstored : length ≤ maxCount) : (length + 31) / 32 ≤ chunkCount count size := by
  have hmin : length ≤ min (count * size) maxCount := Nat.le_min.2 ⟨hcount, hstored⟩
  exact Nat.div_le_div_right (Nat.add_le_add_right hmin 31)

theorem exists_merkleize {chunks : List Chunk} {limit : Nat} (h : chunks.length ≤ limit) :
    ∃ root, merkleize chunks limit = .ok root :=
  ⟨_, Traced.merkleize_eq_tree h⟩

theorem exists_merkleize_bytes {contents : Bytes} {max : Nat} (hmax : contents.length ≤ max)
    (hstored : contents.length ≤ maxCount) :
    ∃ root, merkleize (packChunks contents) (chunkCount max 1) = .ok root := by
  apply exists_merkleize
  rw [length_packChunks]
  exact chunks_le_chunkCount (by rwa [Nat.mul_one]) hstored

theorem exists_packedRoot {element : Shape} {items : List Value} {capacity : Nat}
    (hbasic : element.isBasic = true) (hitems : ∀ item ∈ items, element.check item = .ok ())
    (hcount : items.length ≤ capacity) (hstored : items.length * 32 ≤ maxCount) :
    ∃ root, packedRoot items (element.fixedSize?.getD bytesPerChunk) capacity = .ok root := by
  obtain ⟨-, hsize, -⟩ := prefixSize_bounds hbasic
  have hroom : (packChunks (items.map fun item => element.layout item).flatten).length
      ≤ chunkCount capacity element.prefixSize := by
    rw [length_packChunks, length_flatten_layout hbasic hitems]
    apply chunks_le_chunkCount
    · exact Nat.mul_le_mul_right _ hcount
    · exact (Nat.mul_le_mul_left _ hsize).trans hstored
  rw [packedRoot_eq_merkleize hbasic hitems]
  exact exists_merkleize hroom

/-- A list is hashed as a vector of its capacity, and then with its length. -/
theorem root_list_eq_map (element : Shape) (max : Nat) (items : List Value) :
    root (.list element max) (.list items)
      = (mixInLength · items.length) <$> root (.vector element max) (.list items) := by
  rw [root, root]
  split
  · rfl
  · cases items.mapM fun item => element.root item with
    | error e => rfl
    | ok roots => rfl

/-- The content of a sequence has a root: its leaves are packed scalars or the roots of its
    elements. -/
theorem exists_root_vector {element : Shape} {items : List Value} {capacity : Nat}
    (hitems : ∀ item ∈ items, element.check item = .ok ())
    (hroots : ∀ item ∈ items, ∃ root, element.root item = .ok root)
    (hcount : items.length ≤ capacity) (hstored : items.length * 32 ≤ maxCount) :
    ∃ content, root (.vector element capacity) (.list items) = .ok content := by
  rw [root]
  split
  · rename_i hbasic
    exact exists_packedRoot hbasic hitems hcount hstored
  · obtain ⟨roots, hmapM⟩ := exists_mapM hroots
    have hlength : roots.length ≤ capacity := (mapM_eq_ok.1 hmapM).length_eq ▸ hcount
    obtain ⟨root, hroot⟩ := exists_merkleize hlength
    exact ⟨root, bind_eq_ok.2 ⟨roots, hmapM, hroot⟩⟩

theorem exists_fieldRoots {fields : List (Field Shape)} {values : List Value}
    (h : List.Forall₂ (fun field v => ∃ root, field.shape.root v = .ok root) fields values) :
    ∃ roots, fieldRoots fields values = .ok roots := by
  induction h with
  | nil => exact ⟨[], rfl⟩
  | cons hv _ ih =>
    obtain ⟨root, hroot⟩ := hv
    obtain ⟨roots, hroots⟩ := ih
    exact ⟨root :: roots, by rw [fieldRoots, hroot, hroots]; rfl⟩

theorem exists_root {shape : Shape} {v : Value} (hcheck : shape.check v = .ok ())
    (hstorable : v.Storable) : ∃ root, shape.root v = .ok root := by
  induction shape generalizing v with
  | bool => exact ⟨_, root_scalar_eq_trace rfl hcheck⟩
  | uint width => exact ⟨_, root_scalar_eq_trace rfl hcheck⟩
  | byteVector length =>
    obtain ⟨contents, rfl, rfl⟩ := check_byteVector.1 hcheck
    cases hstorable with
    | bytes hstored => exact exists_merkleize_bytes (Nat.le_refl _) hstored
  | byteList max =>
    obtain ⟨contents, rfl, hmax⟩ := check_byteList.1 hcheck
    cases hstorable with
    | bytes hstored =>
      obtain ⟨root, hroot⟩ := exists_merkleize_bytes hmax hstored
      exact ⟨mixInLength root contents.length, bind_eq_ok.2 ⟨root, hroot, rfl⟩⟩
  | bitVector length =>
    obtain ⟨contents, rfl, rfl⟩ := check_bitVector.1 hcheck
    exact exists_merkleize (length_packChunks_bits_le (Nat.le_refl _))
  | bitList max =>
    obtain ⟨contents, rfl, hmax⟩ := check_bitList.1 hcheck
    obtain ⟨root, hroot⟩ := exists_merkleize (length_packChunks_bits_le hmax)
    exact ⟨mixInLength root contents.length, bind_eq_ok.2 ⟨root, hroot, rfl⟩⟩
  | vector element length ih =>
    obtain ⟨items, rfl, rfl, hitems⟩ := check_vector.1 hcheck
    cases hstorable with
    | list hstored helements =>
      have hroots := fun item hitem => ih (hitems item hitem) (helements item hitem)
      exact exists_root_vector hitems hroots (Nat.le_refl _) hstored
  | list element max ih =>
    obtain ⟨items, rfl, hmax, hitems⟩ := check_list.1 hcheck
    cases hstorable with
    | list hstored helements =>
      have hroots := fun item hitem => ih (hitems item hitem) (helements item hitem)
      obtain ⟨content, hcontent⟩ := exists_root_vector hitems hroots hmax hstored
      rw [root_list_eq_map]
      exact ⟨_, map_eq_ok.2 ⟨content, hcontent, rfl⟩⟩
  | container name fields ih =>
    obtain ⟨values, rfl, hvalues⟩ := check_container.1 hcheck
    cases hstorable with
    | container hstored =>
      have hroots : List.Forall₂ (fun field v => ∃ root, field.shape.root v = .ok root)
          fields values := by
        refine List.forall₂_iff_zip.2 ⟨hvalues.length_eq, fun {field v} hmem => ?_⟩
        have hv := (List.forall₂_iff_zip.1 hvalues).2 hmem
        obtain ⟨hfield, hvalue⟩ := List.of_mem_zip hmem
        exact ih field hfield hv (hstored v hvalue)
      obtain ⟨roots, hroots⟩ := exists_fieldRoots hroots
      obtain ⟨root, hroot⟩ := exists_merkleize (Nat.le_refl roots.length)
      exact ⟨root, bind_eq_ok.2 ⟨roots, hroots, hroot⟩⟩
  | union alternatives ih =>
    obtain ⟨rfl, -⟩ | ⟨selector, shape, inner, rfl, hshape, hinner⟩ := check_union.1 hcheck
    · exact ⟨mixInSelector (.zero _) 0, bind_eq_ok.2 ⟨_, chosenRoot_empty _ _, rfl⟩⟩
    · cases hstorable with
      | union hstored =>
        obtain ⟨root, hroot⟩ := ih shape (List.mem_of_getElem? hshape) hinner (hstored inner rfl)
        refine ⟨mixInSelector root selector, bind_eq_ok.2 ⟨root, ?_, rfl⟩⟩
        rw [chosenRoot_eq_root hshape, hroot]

end Shape

/-- A well-formed value that can be held has a hash tree root, under any capacities. -/
theorem exists_hashTreeRoot {shape : Shape} {v : Value} (hcheck : shape.check v = .ok ())
    (hstorable : v.Storable) : ∃ root, hashTreeRoot shape v = .ok root := by
  rw [hashTreeRoot_of_check hcheck]
  exact Shape.exists_root hcheck hstorable

end Ssz
