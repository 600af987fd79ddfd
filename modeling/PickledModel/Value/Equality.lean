import PickledModel.Value.Basic

/-!
# Equality of values

Two values are equal when they agree apart from the values inside them and those
are equal in pairs. Floats compare as numbers, so a NaN differs from itself and
the two zeros are equal; integers of different widths differ.
-/

set_option autoImplicit false

namespace PickledModel

def Leaf.equal : Leaf → Leaf → Bool
  | .float x, .float y => x.equal y
  | a, b => a == b

namespace Value

def sameHead : Value → Value → Bool
  | .leaf a, .leaf b => a.equal b
  | .sequence k items, .sequence l others => k == l && items.length == others.length
  | .dict entries, .dict others => entries.length == others.length
  | .object name body, .object other body' =>
    name == other && body.map (fun _ => ()) == body'.map (fun _ => ())
  | _, _ => false

def equal (a b : Value) : Bool :=
  a.sameHead b && (a.children.attach.zip b.children).all fun (⟨c, _⟩, d) => equal c d
termination_by sizeOf a
decreasing_by exact sizeOf_lt_of_mem_children ‹_›

theorem equal_eq (a b : Value) :
    a.equal b = (a.sameHead b && (a.children.zip b.children).all fun (c, d) => c.equal d) := by
  rw [equal]
  congr 1
  conv => rhs; rw [← List.attach_map_subtype_val a.children, List.zip_map_left, List.all_map]
  rfl

end Value

end PickledModel
