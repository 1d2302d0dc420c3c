-- SUMMARY: A golden vector passes exactly if it holds the canonical forms of one value.
import Ssz.Golden
import Ssz.Proofs.Merkle.Room
import Ssz.Proofs.Text.Hex
import Ssz.Proofs.Text.Nesting
import Ssz.Proofs.Wire.RoundTrip

/-!
# Golden vectors

A vector is checked by running the codecs over it, one after the other. The law
says what that comes to: the vector passes exactly if there is a value that it
pins. So a text that is merely well-formed, digits in capital letters, and bytes of
another value all fail. Soundness rests on how deep a text that is read can nest,
and on decoding being lossless exactly for values without sizeless items;
completeness rests on the round trips of both codecs.
-/

namespace Ssz.Golden

open Text

/-! ## What a check runs -/

/-- The steps of a check that passes. -/
theorem check_eq_ok {shape : Shape} {json ssz r : String} :
    check shape json ssz = .ok r ↔
      ∃ v, fromJson shape json = .ok v ∧ toJson shape v = .ok json ∧
        ∃ bytes, encode shape v = .ok bytes ∧ Hex.render bytes = ssz ∧
          decode shape bytes = .ok v ∧
          ∃ root, hashTreeRoot shape v = .ok root ∧ Hex.render root.toList = r := by
  simp only [check, bind_eq_ok, mapError_eq_ok, ite_throw_eq_ok, not_not, pure_eq_ok, ne_eq]
  constructor
  · rintro ⟨_, hread, _, hwrite, rfl, bytes, hencode, hdigits, v, hdecode, rfl, hroot⟩
    exact ⟨v, hread, hwrite, bytes, hencode, hdigits, hdecode, hroot⟩
  · rintro ⟨v, hread, hwrite, bytes, hencode, hdigits, hdecode, hroot⟩
    exact ⟨v, hread, _, hwrite, rfl, bytes, hencode, hdigits, v, hdecode, rfl, hroot⟩

/-! ## What a vector says -/

/-- The text and the digits of the vector are those that the value is written as, and the value is
    among those that are read back: it loses no items, and it nests no deeper than JSON is read. -/
structure Pins (shape : Shape) (json ssz : String) (v : Value) : Prop where
  check : shape.check v = .ok ()
  sized : ¬shape.HoldsSizeless v
  depth : ∀ t, toTree shape v = .ok t → t.depth ≤ 127
  json : toJson shape v = .ok json
  ssz : ∃ bytes, encode shape v = .ok bytes ∧ Hex.Spells ssz.toList bytes

section Pins

variable {shape : Shape} {json ssz : String} {v : Value}

/-- A value that a text of JSON is read as nests no deeper than the text. -/
theorem depth_le_of_fromJson (h : fromJson shape json = .ok v) {t : Tree}
    (ht : toTree shape v = .ok t) : t.depth ≤ 127 := by
  obtain ⟨u, hparse, hread⟩ := bind_eq_ok.1 h
  have hrendered := (toTree_eq_ok.1 ht).depth_le hread
  exact Nat.le_trans hrendered (Json.depth_le_of_treeOfJson hparse)

theorem Pins.fromJson (h : Pins shape json ssz v) (hnames : shape.DistinctNames) :
    fromJson shape json = .ok v := by
  obtain ⟨t, ht, hprint⟩ := bind_eq_ok.1 h.json
  cases hprint
  exact (toTree_eq_ok.1 ht).fromJson_print hnames (h.depth t ht)

/-- A vector that passes pins the value that its text is read as. -/
theorem pins_of_check {r : String} (h : Golden.check shape json ssz = .ok r) :
    ∃ v root, Pins shape json ssz v ∧ hashTreeRoot shape v = .ok root ∧
      Hex.Spells r.toList root.toList := by
  obtain ⟨v, hread, hwrite, bytes, hencode, rfl, hdecode, root, hroot, rfl⟩ := check_eq_ok.1 h
  refine ⟨v, root, ⟨?_, ?_, ?_, hwrite, bytes, hencode, Hex.spells_render _⟩, hroot,
    Hex.spells_render _⟩
  · exact (encode_eq_ok.1 hencode).check
  · exact (decode_eq_self_iff hencode).1 hdecode
  · exact fun t ht => depth_le_of_fromJson hread ht

/-- A vector that pins a value passes, and gives the root of the value. -/
theorem Pins.check_eq (h : Pins shape json ssz v) (hnames : shape.DistinctNames) {root : Chunk}
    (hroot : hashTreeRoot shape v = .ok root) :
    Golden.check shape json ssz = .ok (Hex.render root.toList) := by
  obtain ⟨bytes, hencode, hspells⟩ := h.ssz
  have hread := h.fromJson hnames
  have hdecode := (decode_eq_self_iff hencode).2 h.sized
  exact check_eq_ok.2
    ⟨v, hread, h.json, bytes, hencode, Hex.render_eq_iff.2 hspells, hdecode, root, hroot, rfl⟩

end Pins

/-- A vector passes exactly if it pins a value, and what it gives are the digits of the root of that
    value. There is one such value at most. A vector that pins no value is an error. -/
theorem check_eq_ok_iff_pins {shape : Shape} (hnames : shape.DistinctNames) (json ssz : String) :
    (∀ r, check shape json ssz = .ok r ↔
      ∃ v root, Pins shape json ssz v ∧ hashTreeRoot shape v = .ok root ∧
        Hex.Spells r.toList root.toList) ∧
    (∀ v, Pins shape json ssz v → v.Storable → ∃ root, hashTreeRoot shape v = .ok root ∧
      check shape json ssz = .ok (Hex.render root.toList)) ∧
    (∀ v w, Pins shape json ssz v → Pins shape json ssz w → v = w) ∧
    ((¬∃ v, Pins shape json ssz v) → ∃ e, check shape json ssz = .error e) := by
  refine ⟨fun r => ⟨pins_of_check, ?_⟩, fun v hpins hstorable => ?_, fun v w hv hw => ?_,
    fun hnone => ?_⟩
  · rintro ⟨v, root, hpins, hroot, hspells⟩
    rw [hpins.check_eq hnames hroot, Hex.render_eq_iff.2 hspells]
  · obtain ⟨root, hroot⟩ := exists_hashTreeRoot hpins.check hstorable
    exact ⟨root, hroot, hpins.check_eq hnames hroot⟩
  · exact Except.ok.inj ((hv.fromJson hnames).symm.trans (hw.fromJson hnames))
  · cases hcheck : check shape json ssz with
    | ok r =>
      obtain ⟨v, -, hpins, -⟩ := pins_of_check hcheck
      exact absurd ⟨v, hpins⟩ hnone
    | error e => exact ⟨e, rfl⟩

/-- The digits that are on file pass, and the same digits in capital letters do not. -/
theorem check_eq_ok_iff_pins_flags :
    let shape : Shape := .container "exit" [⟨"epoch", "epoch", .uint .u16⟩,
      ⟨"flags", "flags", .bitList 10⟩]
    let v : Value := .container [.uint .u16 171, .bits (.ofList [true, false, true])]
    let json := "\x7b\"epoch\":\"171\",\"flags\":\"0x0d\"\x7d"
    (∃ root, hashTreeRoot shape v = .ok root ∧
      check shape json "ab00060000000d" = .ok (Hex.render root.toList)) ∧
      ∀ r, check shape json "AB00060000000D" ≠ .ok r := by
  intro shape v json
  have hnames : shape.DistinctNames := by
    refine .container (by decide) (fun _ _ => trivial) fun field hfield => ?_
    simp only [List.mem_cons, List.not_mem_nil, or_false] at hfield
    rcases hfield with rfl | rfl
    · exact .uint
    · exact .bitList
  have hpins : Pins shape json "ab00060000000d" v := by
    refine ⟨rfl, Shape.collapse_eq_self_iff.1 rfl, fun t ht => ?_, by decide +kernel, _, rfl,
      Hex.render_eq_iff.1 (by rfl)⟩
    cases ht
    decide
  have hstorable : v.Storable := by
    refine .container fun item hitem => ?_
    simp only [List.mem_cons, List.not_mem_nil, or_false] at hitem
    rcases hitem with rfl | rfl
    · exact .uint
    · exact .bits
  refine ⟨(check_eq_ok_iff_pins hnames json _).2.1 v hpins hstorable, fun r hr => ?_⟩
  obtain ⟨w, -, hcapital, -⟩ := ((check_eq_ok_iff_pins hnames json _).1 r).1 hr
  obtain ⟨bytes, -, hspells⟩ := hcapital.ssz
  exact absurd (hspells.small 'A' (by decide)) (by decide)

end Ssz.Golden
