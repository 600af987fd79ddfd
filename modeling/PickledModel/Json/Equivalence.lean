import PickledModel.Json.Basic

/-!
# Equivalence of documents

Documents that differ only in how their numbers are written and in the order of
their members are equivalent. Numbers compare as 64-bit integers where both are,
and as floats otherwise; the two zeros are kept apart, so finite floats are
equivalent exactly if their bits agree.
-/

set_option autoImplicit false

namespace PickledModel
open scoped Natural

namespace JsonNumber

def int64? : JsonNumber → Option Int64
  | .natural n => if n.toNat < 2 ^ (63 : Nat) then some n.toInt64 else none
  | .negative i => some i
  | .float _ => none

def uint64? : JsonNumber → Option UInt64
  | .natural n => some n
  | _ => none

def toFloat : JsonNumber → Binary64
  | .natural n => .ofNat n.toNat
  | .negative i => .ofInt i.toInt
  | .float x => x

def equivalent (m n : JsonNumber) : Bool :=
  match m.int64?, n.int64? with
  | some i, some j => i == j
  | _, _ => match m.uint64?, n.uint64? with
    | some i, some j => i == j
    | _, _ => m.toFloat == n.toFloat

end JsonNumber

namespace Json

def equivalent : Json → Json → Bool
  | .null, .null => true
  | .bool a, .bool b => a == b
  | .number m, .number n => m.equivalent n
  | .string s, .string t => s == t
  | .array items, .array others =>
    items.length == others.length &&
      (items.attach.zip others).all fun (⟨x, _⟩, y) => equivalent x y
  | .object members, .object others =>
    members.length == others.length && members.attach.all fun ⟨(name, x), _⟩ =>
      match Members.get? name others with
      | some y =>
        have : sizeOf x < sizeOf members := by
          have := List.sizeOf_lt_of_mem ‹_›
          simp at this
          omega
        equivalent x y
      | none => false
  | _, _ => false
termination_by a => sizeOf a

theorem equivalent_array (items others : List Json) :
    (Json.array items).equivalent (.array others) =
      (items.length == others.length && (items.zip others).all fun (x, y) => x.equivalent y) := by
  rw [equivalent]
  congr 1
  conv => rhs; rw [← List.attach_map_subtype_val items, List.zip_map_left, List.all_map]
  rfl

theorem equivalent_object (members others : List (String × Json)) :
    (Json.object members).equivalent (.object others) =
      (members.length == others.length && members.all fun (name, x) =>
        match Members.get? name others with
        | some y => x.equivalent y
        | none => false) := by
  rw [equivalent]
  congr 1
  conv => rhs; rw [← List.attach_map_subtype_val members, List.all_map]
  rfl

end Json

end PickledModel
