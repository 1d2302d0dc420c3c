-- SUMMARY: Induction over shapes, and when a shape is of fixed size.
import Ssz.Shape

/-!
# Shapes

A property of all shapes is proved by induction: at a composite it may be used
for the shapes of its parts. The first use is that the two readings of "fixed
size" agree, the flag and the size itself.
-/

namespace Ssz.Shape

/-! ## Induction -/

@[induction_eliminator] theorem induction {motive : Shape → Prop}
    (bool : motive .bool) (uint : ∀ width, motive (.uint width))
    (byteVector : ∀ length, motive (.byteVector length))
    (byteList : ∀ max, motive (.byteList max))
    (bitVector : ∀ length, motive (.bitVector length))
    (bitList : ∀ max, motive (.bitList max))
    (vector : ∀ element length, motive element → motive (.vector element length))
    (list : ∀ element max, motive element → motive (.list element max))
    (container : ∀ name fields, (∀ field ∈ fields, motive field.shape) →
      motive (.container name fields))
    (union : ∀ alternatives, (∀ shape, some shape ∈ alternatives → motive shape) →
      motive (.union alternatives)) (shape : Shape) : motive shape := by
  refine @Shape.rec motive (fun fields => ∀ field ∈ fields, motive field.shape)
    (fun alternatives => ∀ shape, some shape ∈ alternatives → motive shape)
    (fun field => motive field.shape) (fun choice => ∀ shape, choice = some shape → motive shape)
    bool uint byteVector byteList bitVector bitList vector list container union
    ?_ ?_ ?_ ?_ ?_ ?_ ?_ shape
  · intro field hfield
    cases hfield
  · intro field fields hfield hfields other hother
    rcases List.mem_cons.1 hother with rfl | hother
    · exact hfield
    · exact hfields other hother
  · intro shape hshape
    cases hshape
  · intro choice alternatives hchoice halternatives shape hshape
    rcases List.mem_cons.1 hshape with hshape | hshape
    · exact hchoice shape hshape.symm
    · exact halternatives shape hshape
  · intro _ _ shape hshape
    exact hshape
  · intro shape hshape
    cases hshape
  · intro shape hshape other hother
    cases hother
    exact hshape

/-- Going along the alternatives of a union to the one that is chosen. -/
@[elab_as_elim] theorem chosen_induction {shape : Shape}
    {motive : (alternatives : List (Option Shape)) → (index : Nat) → Prop}
    {alternatives : List (Option Shape)} {index : Nat}
    (hshape : alternatives[index]? = some (some shape))
    (here : ∀ rest, motive (some shape :: rest) 0)
    (further : ∀ choice rest index, motive rest index → motive (choice :: rest) (index + 1)) :
    motive alternatives index := by
  induction alternatives generalizing index with
  | nil => cases hshape
  | cons choice rest ih =>
    cases index with
    | zero =>
      cases hshape
      exact here rest
    | succ index => exact further choice rest index (ih hshape)

/-! ## Fixed sizes -/

theorem fieldsAreFixedSize_eq_all (fields : List (Field Shape)) :
    fieldsAreFixedSize fields = fields.all fun field => field.shape.isFixedSize := by
  induction fields with
  | nil => rfl
  | cons field fields ih => rw [fieldsAreFixedSize, ih, List.all_cons]

theorem isSome_fieldsFixedSize? (fields : List (Field Shape)) :
    (fieldsFixedSize? fields).isSome = fields.all fun field => field.shape.fixedSize?.isSome := by
  induction fields with
  | nil => rfl
  | cons field fields ih =>
    rw [fieldsFixedSize?, List.all_cons, ← ih]
    cases field.shape.fixedSize? <;> cases fieldsFixedSize? fields <;> rfl

/-- The flag and the size say the same. -/
theorem isSome_fixedSize? (shape : Shape) : shape.fixedSize?.isSome = shape.isFixedSize := by
  induction shape with
  | vector element length ih => simpa [fixedSize?, isFixedSize] using ih
  | container name fields ih =>
    rw [fixedSize?, isFixedSize, isSome_fieldsFixedSize?, fieldsAreFixedSize_eq_all]
    rw [Bool.eq_iff_iff, List.all_eq_true, List.all_eq_true]
    exact forall₂_congr fun field hfield => by rw [ih field hfield]
  | _ => rfl

end Ssz.Shape
