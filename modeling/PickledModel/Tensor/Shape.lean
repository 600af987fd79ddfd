import PickledModel.Number.Natural

/-!
# Shapes

Sizes of arrays as products of their dimensions, taken from left to right in
64-bit words.
-/

set_option autoImplicit false

namespace PickledModel.Shape
open scoped Natural

/-- The product of a factor and all dimensions, if no product on the way leaves a 64-bit word. -/
def product? (factor : Nat) (shape : List Nat) : Option Nat :=
  shape.foldlM (fun n d => if n * d < 2 ^ (64 : Nat) then some (n * d) else none) factor

def count? (shape : List Nat) : Option Nat := product? 1 shape

theorem product?_eq {factor n : Nat} {shape : List Nat} (h : product? factor shape = some n) :
    n = factor * shape.foldl (· * ·) 1 := by
  induction shape generalizing factor with
  | nil => simp_all [product?]
  | cons d shape ih =>
    simp only [product?, List.foldlM_cons, Option.bind_eq_bind] at h
    split at h
    · have hd := @ih (factor * d) (by simpa [product?] using h)
      rw [hd, List.foldl_cons, Nat.one_mul]
      have scale (a : Nat) (ds : List Nat) :
          ds.foldl (· * ·) a = a * ds.foldl (· * ·) 1 := by
        induction ds generalizing a with
        | nil => simp
        | cons e ds ihd => rw [List.foldl_cons, List.foldl_cons, ihd, ihd (1 * e)]; simp [Nat.mul_assoc]
      rw [scale d, Nat.mul_assoc]
    · simp at h

end PickledModel.Shape
