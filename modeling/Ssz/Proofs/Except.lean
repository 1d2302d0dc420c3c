-- SUMMARY: What a successful or failed run of a `do` block over `Except` says about its steps.
import Mathlib.Data.List.Forall2

/-!
# Runs that may fail

A reader or writer succeeds exactly if each of its steps does. A traversal of a
list succeeds exactly if it does so at every element, and then its results stand
to the elements one by one. A run fails only in a way in which one of its steps
does.
-/

namespace Ssz

variable {ε α β : Type}

/-! ## Successful runs -/

@[simp] theorem exists_unit {p : Unit → Prop} : (∃ u, p u) ↔ p () :=
  ⟨fun ⟨_, h⟩ => h, fun h => ⟨(), h⟩⟩

@[simp] theorem bind_eq_ok {x : Except ε α} {f : α → Except ε β} {b : β} :
    x >>= f = .ok b ↔ ∃ a, x = .ok a ∧ f a = .ok b := by
  cases x <;> simp [bind, Except.bind]

@[simp] theorem map_eq_ok {x : Except ε α} {f : α → β} {b : β} :
    f <$> x = .ok b ↔ ∃ a, x = .ok a ∧ f a = b := by
  cases x <;> simp

@[simp] theorem pure_eq_ok {a b : α} : (pure a : Except ε α) = .ok b ↔ a = b := by
  simp [pure, Except.pure]

@[simp] theorem throw_ne_ok {e : ε} {a : α} : (throw e : Except ε α) ≠ .ok a := by
  simp [throw, throwThe, MonadExceptOf.throw]

@[simp] theorem mapError_eq_ok {ε' : Type} {f : ε → ε'} {x : Except ε α} {a : α} :
    x.mapError f = .ok a ↔ x = .ok a := by
  cases x <;> simp [Except.mapError]

/-- A run that stops under a condition succeeds if the condition does not hold. -/
theorem ite_throw_eq_ok {c : Prop} [Decidable c] {e : ε} {f : β → Except ε α} {x : Except ε α}
    {a : α} : (if c then throw e >>= f else x) = .ok a ↔ ¬ c ∧ x = .ok a := by
  split <;> simp_all

theorem ite_pure_eq_ok {c : Prop} [Decidable c] {e : ε} {a b : α} :
    (if c then pure a else throw e : Except ε α) = .ok b ↔ c ∧ a = b := by
  split <;> simp_all

theorem mapM_eq_ok {f : α → Except ε β} {xs : List α} {ys : List β} :
    xs.mapM f = .ok ys ↔ List.Forall₂ (fun x y => f x = .ok y) xs ys := by
  induction xs generalizing ys with
  | nil => rw [List.mapM_nil, pure_eq_ok, List.forall₂_nil_left_iff, eq_comm]
  | cons x xs ih =>
    simp only [List.mapM_cons, bind_eq_ok, pure_eq_ok, ih, List.forall₂_cons_left_iff]
    constructor
    · rintro ⟨y, hy, ys, hys, rfl⟩
      exact ⟨y, ys, hy, hys, rfl⟩
    · rintro ⟨y, ys, hy, hys, rfl⟩
      exact ⟨y, hy, ys, hys, rfl⟩

theorem mapM_eq_ok_map {f : α → Except ε β} {g : α → β} {xs : List α}
    (h : ∀ x ∈ xs, f x = .ok (g x)) : xs.mapM f = .ok (xs.map g) := by
  refine mapM_eq_ok.2 (List.forall₂_map_right_iff.2 ?_)
  exact List.forall₂_same.2 h

/-- What exists for every element exists for all of them, one by one. -/
theorem exists_forall₂ {R : α → β → Prop} {xs : List α} (h : ∀ x ∈ xs, ∃ y, R x y) :
    ∃ ys, List.Forall₂ R xs ys := by
  induction xs with
  | nil => exact ⟨[], .nil⟩
  | cons x xs ih =>
    obtain ⟨⟨y, hy⟩, hxs⟩ := List.forall_mem_cons.1 h
    obtain ⟨ys, hys⟩ := ih hxs
    exact ⟨y :: ys, .cons hy hys⟩

/-- Pairs of elements may be changed by what is known of the first. -/
theorem forall₂_imp_of_mem {R S : α → β → Prop} {xs : List α} {ys : List β}
    (h : List.Forall₂ R xs ys) (himp : ∀ x ∈ xs, ∀ y, R x y → S x y) : List.Forall₂ S xs ys := by
  have hmem := (List.forall₂_and_left xs ys).2 ⟨fun x hx => hx, h⟩
  exact hmem.imp fun x y ⟨hx, hR⟩ => himp x hx y hR

/-- A traversal succeeds if it does so at every element. -/
theorem exists_mapM {f : α → Except ε β} {xs : List α} (h : ∀ x ∈ xs, ∃ y, f x = .ok y) :
    ∃ ys, xs.mapM f = .ok ys := by
  obtain ⟨ys, hys⟩ := exists_forall₂ h
  exact ⟨ys, mapM_eq_ok.2 hys⟩

theorem forM_eq_ok {f : α → Except ε Unit} {xs : List α} :
    xs.forM f = .ok () ↔ ∀ x ∈ xs, f x = .ok () := by
  induction xs with
  | nil => simp [List.forM]
  | cons x xs ih =>
    rw [List.forM, bind_eq_ok, exists_unit, ih, List.forall_mem_cons]

/-! ## Equal runs -/

theorem bind_congr_ok {x : Except ε α} {f g : α → Except ε β} (h : ∀ a, x = .ok a → f a = g a) :
    x >>= f = x >>= g := by
  cases x with
  | ok a => exact h a rfl
  | error e => rfl

theorem mapM_congr {f g : α → Except ε β} {xs : List α} (h : ∀ x ∈ xs, f x = g x) :
    xs.mapM f = xs.mapM g := by
  induction xs with
  | nil => rfl
  | cons x xs ih =>
    have htail := ih fun other hother => h other (List.mem_cons_of_mem _ hother)
    rw [List.mapM_cons, List.mapM_cons, h x List.mem_cons_self, htail]

/-- Two runs with the same first step agree up to `g` if they do so after it. -/
theorem map_bind_congr {γ : Type} {x : Except ε α} {f : α → Except ε β} {f' : α → Except ε γ}
    {g : β → γ} (h : ∀ a, x = .ok a → g <$> f a = f' a) : g <$> (x >>= f) = x >>= f' := by
  rw [map_bind]
  exact bind_congr_ok h

theorem map_mapM {γ : Type} {f : α → Except ε β} {g : β → γ} {xs : List α} :
    List.map g <$> xs.mapM f = xs.mapM fun x => g <$> f x := by
  induction xs with
  | nil => rfl
  | cons x xs ih =>
    rw [List.mapM_cons, List.mapM_cons, ← ih]
    simp only [map_bind, bind_map_left, map_pure, List.map_cons]

/-! ## Failed runs -/

/-- Every way in which the run can fail satisfies `p`. -/
def FailsWith (p : ε → Prop) (x : Except ε α) : Prop := ∀ e, x = .error e → p e

namespace FailsWith

variable {p : ε → Prop}

theorem ok (a : α) : FailsWith p (.ok a : Except ε α) := by
  rintro e ⟨⟩

theorem error {e : ε} (h : p e) : FailsWith p (.error e : Except ε α) := by
  rintro _ ⟨⟩
  exact h

theorem imp {q : ε → Prop} {x : Except ε α} (hx : FailsWith p x) (h : ∀ e, p e → q e) :
    FailsWith q x :=
  fun e he => h e (hx e he)

theorem bind {x : Except ε α} {f : α → Except ε β} (hx : FailsWith p x)
    (hf : ∀ a, x = .ok a → FailsWith p (f a)) : FailsWith p (x >>= f) := by
  cases x with
  | ok a => exact hf a rfl
  | error e => exact error (hx e rfl)

theorem mapM {f : α → Except ε β} {xs : List α} (h : ∀ x ∈ xs, FailsWith p (f x)) :
    FailsWith p (xs.mapM f) := by
  induction xs with
  | nil => exact ok []
  | cons x xs ih =>
    rw [List.mapM_cons]
    have htail := ih fun other hother => h other (List.mem_cons_of_mem _ hother)
    exact (h x List.mem_cons_self).bind fun _ _ => htail.bind fun _ _ => ok _

end FailsWith

end Ssz
