-- SUMMARY: All producers accept the same values, and what stops the encoder on an accepted one.
import Ssz.Proofs.Merkle.Digest
import Ssz.Proofs.Text.Renders
import Ssz.Proofs.Wire.Overflow
import Ssz.Text.Codec

/-!
# What the producers accept

The encoder, the hasher and the three text writers each recurse over a value on
their own. They refuse the same values, for the same cause, since the check comes
first; and on a value that passes it none of them meets a case that it does not
cover. Only the encoder has something left that can go wrong.
-/

namespace Ssz

/-- Every producer refuses the value, for the cause `e`. -/
structure Refused (shape : Shape) (v : Value) (e : EncodeError) : Prop where
  encode : encode shape v = .error e
  root : hashTreeRoot shape v = .error e
  tree : toTree shape v = .error e
  json : toJson shape v = .error e
  yaml : toYaml shape v = .error e

/-- Every producer gives a result for the value, but for the encoder where the value has an offset
    that takes more than four bytes: the encoder then names such an offset. -/
structure Produced (shape : Shape) (v : Value) : Prop where
  encode : (∀ offset, shape.HasOffset v offset → offset < 2 ^ 32) →
    ∃ bytes, encode shape v = .ok bytes
  overflow : ∀ offset, shape.HasOffset v offset → 2 ^ 32 ≤ offset →
    ∃ first, shape.HasOffset v first ∧ 2 ^ 32 ≤ first ∧
      Ssz.encode shape v = .error (.offsetOverflow first)
  root : ∃ root, hashTreeRoot shape v = .ok root
  tree : ∃ t, toTree shape v = .ok t
  json : ∃ text, toJson shape v = .ok text
  yaml : ∃ text, toYaml shape v = .ok text

theorem refused_of_check {shape : Shape} {v : Value} {e : EncodeError}
    (hcheck : shape.check v = .error e) : Refused shape v e := by
  have hbind {α : Type} (f : Unit → Except EncodeError α) : shape.check v >>= f = .error e := by
    rw [hcheck]
    rfl
  have htree : toTree shape v = .error e := hbind _
  refine ⟨hbind _, hbind _, htree, ?_, ?_⟩
  · rw [toJson, htree]
    rfl
  · rw [toYaml, htree]
    rfl

theorem produced_of_check {shape : Shape} {v : Value} (hcheck : shape.check v = .ok ())
    (hbounded : shape.Bounded) : Produced shape v := by
  have hroot : hashTreeRoot shape v = .ok (shape.digest v) := by
    rw [hashTreeRoot, hcheck]
    exact Shape.root_eq_digest hcheck hbounded
  obtain ⟨t, ht⟩ := Shape.exists_renders hcheck
  have htree : toTree shape v = .ok t := toTree_eq_ok.2 ht
  constructor
  case encode => exact (encode_addressed hcheck).isOk_iff.2
  case overflow => exact fun _ hoffset hlarge =>
    (encode_addressed hcheck).exists_overflow hoffset hlarge
  case root => exact ⟨_, hroot⟩
  case tree => exact ⟨t, htree⟩
  case json =>
    rw [toJson, htree]
    exact ⟨_, rfl⟩
  case yaml =>
    rw [toYaml, htree]
    exact ⟨_, rfl⟩

/-- The producers accept exactly the well-formed values, and an accepted value is produced in every
    form that its offsets leave room for. -/
theorem producers_agree (shape : Shape) (v : Value) :
    (∀ e, shape.check v = .error e → Refused shape v e) ∧
      (shape.check v = .ok () → shape.Bounded → Produced shape v) :=
  ⟨fun _ => refused_of_check, produced_of_check⟩

/-- Two byte lists of which the second starts behind more bytes than an offset can say. -/
theorem producers_agree_long_pair :
    let shape : Shape := .container "pair" [⟨"first", "first", .byteList (2 ^ 32)⟩,
      ⟨"second", "second", .byteList 1⟩]
    let v : Value := .container [.bytes (List.replicate (2 ^ 32) 0), .bytes []]
    Refused shape (.container []) (.wrongLength "pair" 2 0) ∧
      (∃ root, hashTreeRoot shape v = .ok root) ∧
      ∃ offset, 2 ^ 32 ≤ offset ∧ encode shape v = .error (.offsetOverflow offset) := by
  -- The long contents are a variable from here on, of which only the length is known.
  have hlength : (List.replicate (2 ^ 32) (0 : UInt8)).length = 2 ^ 32 := List.length_replicate
  generalize List.replicate (2 ^ 32) (0 : UInt8) = contents at hlength
  intro shape v
  have hcheck : shape.check v = .ok () := by
    refine Shape.check_container.2 ⟨_, rfl, .cons ?_ (.cons rfl .nil)⟩
    exact Shape.check_byteList.2 ⟨_, rfl, hlength.le⟩
  have hbounded : shape.Bounded := by
    refine .container (by decide) fun field hfield => ?_
    rcases List.mem_cons.1 hfield with rfl | hfield
    · exact .byteList (by decide)
    · rcases List.mem_singleton.1 hfield with rfl
      exact .byteList (by decide)
  have hstart : shape.HasOffset v (8 + contents.length) :=
    .here (Part.startsFrom_variable.2 (.inr (Part.startsFrom_variable.2 (.inl rfl))))
  have hlarge : 2 ^ 32 ≤ 8 + contents.length := by
    rw [hlength]
    exact Nat.le_add_left _ _
  have hproduced := (producers_agree shape v).2 hcheck hbounded
  obtain ⟨offset, -, hoffset, hencode⟩ := hproduced.overflow _ hstart hlarge
  exact ⟨(producers_agree shape (.container [])).1 _ rfl, hproduced.root, offset, hoffset, hencode⟩

end Ssz
