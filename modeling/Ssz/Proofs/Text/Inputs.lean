-- SUMMARY: Whatever is read from a text or a tree is well-formed, and fit for every writer.
import Ssz.Proofs.Merkle.Room
import Ssz.Proofs.Producers
import Ssz.Proofs.Text.Accepts
import Ssz.Proofs.Text.Json

/-!
# Values from untrusted texts

A text may be of any kind, and so may a tree that another reader hands over. No
check is made on what comes out of the textual reader, so it has to be well-formed
by itself. Then the writers cannot fail on it, but for an offset that does not fit,
and the tree that is rendered from it is read as the same value again.
-/

namespace Ssz

open Text

/-- The value was read for the shape, from a JSON text, a YAML text, or a tree in some dialect. -/
inductive Shape.Admits (shape : Shape) (v : Value) : Prop
  | json (text : String) : fromJson shape text = .ok v → Admits shape v
  | yaml (text : String) : fromYaml shape text = .ok v → Admits shape v
  | tree (d : Dialect) (t : Tree) : Ssz.ofTree d shape t = .ok v → Admits shape v

/-- Every text is read through a tree. -/
theorem Shape.Admits.exists_tree {shape : Shape} {v : Value} (h : shape.Admits v) :
    ∃ d t, Ssz.ofTree d shape t = .ok v := by
  cases h with
  | json text h =>
    obtain ⟨t, -, ht⟩ := bind_eq_ok.1 h
    exact ⟨.json, t, ht⟩
  | yaml text h =>
    obtain ⟨t, -, ht⟩ := bind_eq_ok.1 h
    exact ⟨.yaml, t, ht⟩
  | tree d t h => exact ⟨d, t, h⟩

theorem Shape.Admits.check {shape : Shape} {v : Value} (h : shape.Admits v) :
    shape.check v = .ok () := by
  obtain ⟨d, t, ht⟩ := h.exists_tree
  exact check_of_ofTree ht

/-- The encoder refuses a well-formed value only for an offset that takes more than four bytes. -/
theorem exists_offset_of_encode {shape : Shape} {v : Value} {e : EncodeError}
    (hcheck : shape.check v = .ok ()) (h : encode shape v = .error e) :
    ∃ offset, shape.HasOffset v offset ∧ 2 ^ 32 ≤ offset ∧ e = .offsetOverflow offset := by
  have haddressed := encode_addressed hcheck
  rw [h] at haddressed
  cases haddressed with
  | overflows hoffset hlarge => exact ⟨_, hoffset, hlarge, rfl⟩

/-- A value that was read is well-formed, whatever it was read from. So it has a root if it can be
    held at all, it is written as JSON and as YAML, only an offset can stop the encoder, and the
    tree that is rendered from it is read as the same value. -/
theorem wellFormed_of_admits {shape : Shape} {v : Value} (h : shape.Admits v) :
    shape.check v = .ok () ∧
      (v.Storable → ∃ root, hashTreeRoot shape v = .ok root) ∧
      (∃ text, toJson shape v = .ok text) ∧ (∃ text, toYaml shape v = .ok text) ∧
      (∀ e, encode shape v = .error e →
        ∃ offset, shape.HasOffset v offset ∧ 2 ^ 32 ≤ offset ∧ e = .offsetOverflow offset) ∧
      (shape.DistinctNames → ∃ t, toTree shape v = .ok t ∧ ofTree .json shape t = .ok v ∧
        ofTree .tree shape t = .ok v) := by
  have hcheck := h.check
  obtain ⟨t, ht⟩ := Shape.exists_renders hcheck
  have htree : toTree shape v = .ok t := toTree_eq_ok.2 ht
  refine ⟨hcheck, exists_hashTreeRoot hcheck, ?_, ?_, fun e he => exists_offset_of_encode hcheck he,
    fun hnames => ⟨t, htree, ht.ofTree hnames .json, ht.ofTree hnames .tree⟩⟩
  · exact ⟨_, map_eq_ok.2 ⟨t, htree, rfl⟩⟩
  · exact ⟨_, map_eq_ok.2 ⟨t, htree, rfl⟩⟩

/-- A text with blanks, an unknown key, a repeated key, capital digits, an escape and leading
    zeros. -/
theorem wellFormed_of_admits_hostile :
    let shape : Shape := .container "record" [⟨"slot", "slot", .uint .u64⟩,
      ⟨"flags", "flags", .bitList 10⟩,
      ⟨"choice", "choice", .union [none, some (.vector (.byteList 2) 1)]⟩]
    let text := "\x7b\"choice\": \x7b\"value\": [\"AB\"], \"selector\": \"01\"\x7d, \"slot\": 3,"
      ++ " \"other\": 1e9, \"flags\": \"0x\\u0030d\", \"slot\": \"007\" \x7d"
    let v : Value := .container [.uint .u64 7, .bits (.ofList [true, false, true]),
      .union 1 (some (.list [.bytes [0xAB]]))]
    fromJson shape text = .ok v ∧ shape.check v = .ok () := by
  intro shape text v
  have hread : fromJson shape text = .ok v := by decide +kernel
  exact ⟨hread, (wellFormed_of_admits (.json text hread)).1⟩

end Ssz
