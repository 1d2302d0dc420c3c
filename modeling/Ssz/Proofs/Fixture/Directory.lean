-- SUMMARY: What is read from a directory after files have been written to it.
import Ssz.Fixture.Case
import Ssz.Proofs.Except

/-!
# Directories

A file that has been written is read back, and all other names keep what they stand
for. Nothing can stop a write but a directory of the name of the file.
-/

namespace Ssz.Fixture.Directory

variable {dir written : Directory} {name other : String} {contents : Bytes} {text : String}

/-! ## Texts -/

theorem toList_loop (bytes : ByteArray) (index : Nat) (done : List UInt8) :
    ByteArray.toList.loop bytes index done = done.reverse ++ bytes.data.toList.drop index := by
  fun_induction ByteArray.toList.loop bytes index done with
  | case1 index done hindex ih =>
    have hsize : index < bytes.data.toList.length := hindex
    have hget : bytes.get! index = bytes.data.toList[index] := by
      show bytes.data[index]! = _
      rw [getElem!_pos bytes.data index hindex, Array.getElem_toList]
    rw [ih, List.drop_eq_getElem_cons hsize, List.reverse_cons, List.append_assoc, hget,
      List.singleton_append]
  | case2 index done hindex =>
    have hsize : bytes.data.toList.length ≤ index := Nat.le_of_not_lt hindex
    rw [List.drop_eq_nil_of_le hsize, List.append_nil]

theorem fromUTF8?_toUTF8 (text : String) :
    String.fromUTF8? ⟨text.toUTF8.toList.toArray⟩ = some text := by
  have hbytes : (⟨text.toUTF8.toList.toArray⟩ : ByteArray) = text.toUTF8 := by
    rw [ByteArray.toList, toList_loop]
    rfl
  rw [hbytes]
  exact dif_pos text.isValidUTF8

theorem readText_of_read (h : dir.read name = .ok text.toUTF8.toList) :
    dir.readText name = .ok text := by
  refine bind_eq_ok.2 ⟨_, h, ?_⟩
  rw [fromUTF8?_toUTF8]
  rfl

/-! ## Writes -/

theorem write_eq_ok (h : dir.lookup name ≠ some .directory) (contents : Bytes) :
    dir.write name contents = .ok ((name, .file contents) :: dir.filter (·.1 ≠ name)) :=
  if_neg h

theorem lookup_write_self (h : dir.write name contents = .ok written) :
    written.lookup name = some (.file contents) := by
  unfold write at h
  split at h
  · cases h
  · cases h
    exact List.lookup_cons_self

theorem lookup_filter_ne (h : other ≠ name) (dir : Directory) :
    (dir.filter (·.1 ≠ name)).lookup other = dir.lookup other := by
  induction dir with
  | nil => rfl
  | cons entry dir ih =>
    obtain ⟨key, entry⟩ := entry
    by_cases hkey : key = name
    · have hother : (other == key) = false := beq_eq_false_iff_ne.2 (hkey ▸ h)
      rw [List.filter_cons_of_neg (by simp [hkey]), List.lookup_cons, hother, ih]
    · rw [List.filter_cons_of_pos (by simp [hkey]), List.lookup_cons, List.lookup_cons, ih]

theorem lookup_write_of_ne (h : dir.write name contents = .ok written) (hother : other ≠ name) :
    written.lookup other = dir.lookup other := by
  unfold write at h
  split at h
  · cases h
  · cases h
    rw [List.lookup_cons, beq_eq_false_iff_ne.2 hother]
    exact lookup_filter_ne hother dir

theorem read_eq_ok : dir.read name = .ok contents ↔ dir.lookup name = some (.file contents) := by
  unfold read
  split <;> simp_all

end Ssz.Fixture.Directory
