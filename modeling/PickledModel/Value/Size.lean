import PickledModel.Value.Basic

/-!
# Sizes of values

The bytes that a copy of a value is charged for: a fixed size for the value and
the text it owns, and the same for the values inside it. The charge is taken
over a list of pending values and given up once it passes a limit.
-/

set_option autoImplicit false

namespace PickledModel
open scoped Natural

theorem le_sum_of_mem {l : List Nat} {n : Nat} (h : n ∈ l) : n ≤ l.sum := by
  induction l with
  | nil => simp at h
  | cons m l ih =>
    rw [List.sum_cons]
    rcases List.mem_cons.mp h with rfl | h
    · omega
    · have := ih h
      omega

def Body.dimensions {α : Type} : Body α → Nat
  | .array a => a.shape.length
  | _ => 0

namespace Value

def dimensions : Value → Nat
  | .object _ body => body.dimensions
  | _ => 0

/-- The number of values in a value, itself included, an array counting each of
its dimensions as one. -/
def weight (v : Value) : Nat :=
  1 + v.dimensions + (v.children.attach.map fun ⟨c, _⟩ => weight c).sum
termination_by sizeOf v
decreasing_by exact sizeOf_lt_of_mem_children ‹_›

theorem weight_eq (v : Value) : v.weight = 1 + v.dimensions + (v.children.map weight).sum := by
  rw [weight]
  congr 2
  conv => rhs; rw [← List.attach_map_subtype_val v.children, List.map_map]
  rfl

theorem weight_pos (v : Value) : 0 < v.weight := by
  rw [weight_eq]
  omega

theorem weight_lt_of_mem {v c : Value} (h : c ∈ v.children) : c.weight < v.weight := by
  have : c.weight ≤ (v.children.map weight).sum := le_sum_of_mem (List.mem_map_of_mem h)
  rw [weight_eq v]
  omega

def largestSize : Nat := 2 ^ (64 : Nat) - 1

/-- The bytes of a value apart from the values inside it and from shared byte runs. -/
def shallowSize : Value → Nat
  | .leaf (.str s) => 32 + s.utf8ByteSize
  | .leaf (.global name) => 32 + name.utf8ByteSize
  | .object typeName _ => 32 + (512 + typeName.utf8ByteSize)
  | _ => 32

/-- The bytes of the pending values and all inside them on top of `total`, if
they stay within `limit`. -/
def charge (limit : Nat) (total : Nat) : List Value → Option Nat
  | [] => some total
  | v :: pending =>
    let total := min (total + v.shallowSize) largestSize
    if limit < total then .none else charge limit total (v.children ++ pending)
termination_by pending => (pending.map weight).sum
decreasing_by
  have := weight_eq v
  simp only [List.map_append, List.sum_append, List.map_cons, List.sum_cons]
  omega

def footprint? (v : Value) (limit : Nat) : Option Nat := charge limit 0 [v]

end Value

end PickledModel
