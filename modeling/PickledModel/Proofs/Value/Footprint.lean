import Mathlib.Algebra.BigOperators.Ring.List
import Mathlib.Algebra.Ring.Nat
import PickledModel.Value.Access
import PickledModel.Value.Size

/-! What a copy of a value is charged for. The charge is taken over a list of
pending values and given up at a limit; it is the sum of the shallow sizes in
the value, capped at the largest word. Each value counts for 32 bytes or more.
The texts and dimensions in the bodies of objects are left out of it, and an
object counts for 512 bytes in their place. -/

set_option autoImplicit false

namespace PickledModel

def Body.texts {α : Type} : Body α → List String
  | .attributes entries => entries.map Prod.fst
  | .array a => a.order.toList
  | _ => []

namespace Value

def total (f : Value → Nat) (v : Value) : Nat :=
  f v + (v.children.attach.map fun ⟨c, _⟩ => total f c).sum
termination_by sizeOf v
decreasing_by exact sizeOf_lt_of_mem_children ‹_›

theorem total_eq (f : Value → Nat) (v : Value) :
    v.total f = f v + (v.children.map (total f)).sum := by
  rw [total]
  congr 2
  conv => rhs; rw [← List.attach_map_subtype_val v.children, List.map_map]
  rfl

theorem total_add (f g : Value → Nat) (v : Value) :
    v.total (fun u => f u + g u) = v.total f + v.total g := by
  induction v using childInduction with
  | step v ih =>
    have hmap : v.children.map (total fun u => f u + g u) =
        v.children.map fun c => c.total f + c.total g := List.map_congr_left ih
    rw [total_eq, total_eq f, total_eq g, hmap, List.sum_map_add]
    omega

theorem total_mul (k : Nat) (f : Value → Nat) (v : Value) :
    v.total (fun u => k * f u) = k * v.total f := by
  induction v using childInduction with
  | step v ih =>
    have hmap : v.children.map (total fun u => k * f u) = v.children.map fun c => k * c.total f :=
      List.map_congr_left ih
    rw [total_eq, total_eq f, hmap, List.sum_map_mul_left, Nat.mul_add]

theorem total_le_total {f g : Value → Nat} (h : ∀ u, f u ≤ g u) (v : Value) :
    v.total f ≤ v.total g := by
  have hsplit : v.total g = v.total f + v.total fun u => g u - f u := by
    rw [← total_add]
    congr 1
    funext u
    have := h u
    omega
  omega

def count (v : Value) : Nat := v.total fun _ => 1

/-- The bytes that a copy is charged for, before they are capped at a word. -/
def size (v : Value) : Nat := v.total shallowSize

theorem size_eq (v : Value) : v.size = v.shallowSize + (v.children.map size).sum :=
  total_eq shallowSize v

theorem shallowSize_ge (v : Value) : 32 ≤ v.shallowSize := by
  unfold shallowSize
  split <;> omega

/-- A value is charged for 32 bytes and more for each value in it. -/
theorem count_le_size (v : Value) : 32 * v.count ≤ v.size := by
  rw [count, ← total_mul]
  exact total_le_total (fun u => shallowSize_ge u) v

theorem size_pos (v : Value) : 0 < v.size := by
  have := shallowSize_ge v
  rw [size_eq]
  omega

/-- The charge for all pending values is given up as soon as a part of it passes
the limit, which is the same as comparing the whole with the limit. -/
theorem charge_eq {limit total : Nat} {pending : List Value} (hlimit : total ≤ limit)
    (hword : total ≤ largestSize) :
    charge limit total pending =
      if min (total + (pending.map size).sum) largestSize ≤ limit then
        some (min (total + (pending.map size).sum) largestSize)
      else .none := by
  induction total, pending using charge.induct limit with
  | case1 total =>
    rw [charge, List.map_nil, List.sum_nil, Nat.add_zero, Nat.min_eq_left hword, if_pos hlimit]
  | case2 total v pending next hnext =>
    have hsize := size_eq v
    rw [charge, if_pos hnext, if_neg]
    simp only [List.map_cons, List.sum_cons]
    omega
  | case3 total v pending next hnext ih =>
    have hsize := size_eq v
    have hrest : min (next + ((v.children ++ pending).map size).sum) largestSize =
        min (total + ((v :: pending).map size).sum) largestSize := by
      simp only [List.map_append, List.sum_append, List.map_cons, List.sum_cons]
      omega
    rw [charge, if_neg hnext, ih (by omega) (Nat.min_le_right _ _), hrest]

def cost (v : Value) : Nat := min v.size largestSize

theorem footprint?_eq (v : Value) (limit : Nat) :
    v.footprint? limit = if v.cost ≤ limit then some v.cost else .none := by
  rw [footprint?, charge_eq (Nat.zero_le _) (Nat.zero_le _)]
  simp only [Nat.zero_add, List.map_cons, List.map_nil, List.sum_cons, List.sum_nil, Nat.add_zero]
  rfl

theorem footprint?_eq_some_iff {v : Value} {limit cost : Nat} :
    v.footprint? limit = some cost ↔ cost = v.cost ∧ cost ≤ limit := by
  rw [footprint?_eq]
  split
  · next h =>
    rw [Option.some.injEq]
    omega
  · next h =>
    constructor
    · rintro ⟨⟩
    · omega

theorem cost_pos (v : Value) : 0 < v.cost := by
  have := size_pos v
  rw [cost, largestSize]
  omega

def texts : Value → List String
  | .leaf (.str s) => [s]
  | .leaf (.global name) => [name]
  | .object typeName body => typeName :: body.texts
  | _ => []

/-- The bytes that a copy of a value takes for itself: 32, its texts, and 8 for
each dimension of an array. -/
def ownBytes (v : Value) : Nat :=
  32 + (v.texts.map String.utf8ByteSize).sum + 8 * v.dimensions

def ownedSize (v : Value) : Nat := v.total ownBytes

def bodyBytes : Value → Nat
  | .object _ body => (body.texts.map String.utf8ByteSize).sum + 8 * body.dimensions
  | _ => 0

def uncharged (v : Value) : Nat := v.total bodyBytes

def isObject (v : Value) : Bool := v.object?.isSome

def objectCount (v : Value) : Nat := v.total fun u => u.isObject.toNat

/-- The 512 bytes that an object counts for stand against what its size leaves out. -/
theorem size_add_uncharged (v : Value) :
    v.size + v.uncharged = v.ownedSize + 512 * v.objectCount := by
  rw [size, uncharged, ownedSize, objectCount, ← total_add, ← total_mul, ← total_add]
  congr 1
  funext u
  unfold shallowSize bodyBytes ownBytes texts isObject object?
  split <;> simp [dimensions]
  omega

end Value
end PickledModel
