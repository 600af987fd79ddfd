import PickledModel.Number.Binary
import PickledModel.Value.Body

/-!
# Values

The values a stream rebuilds. A value is a leaf, a sequence of one of four
kinds, a list of entries, or an object; `children` are the values directly
inside it, and recursion on values goes through them.
-/

set_option autoImplicit false

namespace PickledModel
open scoped Natural

inductive Leaf where
  | none
  | bool (b : Bool)
  | int (i : Int64)
  | bigInt (i : Int)
  | float (x : Binary64)
  | str (s : String)
  | bytes (bs : Bytes)
  | global (name : String)
  deriving DecidableEq, Hashable, Repr

inductive SequenceKind where
  | list
  | tuple
  | set
  | frozenSet
  deriving DecidableEq, Repr

inductive Value where
  | leaf (l : Leaf)
  | sequence (kind : SequenceKind) (items : List Value)
  | dict (entries : List (Value × Value))
  | object (typeName : String) (body : Body Value)

namespace Value

@[match_pattern] abbrev none : Value := .leaf .none
@[match_pattern] abbrev bool (b : Bool) : Value := .leaf (.bool b)
@[match_pattern] abbrev int (i : Int64) : Value := .leaf (.int i)
@[match_pattern] abbrev bigInt (i : Int) : Value := .leaf (.bigInt i)
@[match_pattern] abbrev float (x : Binary64) : Value := .leaf (.float x)
@[match_pattern] abbrev str (s : String) : Value := .leaf (.str s)
@[match_pattern] abbrev bytes (bs : Bytes) : Value := .leaf (.bytes bs)
@[match_pattern] abbrev global (name : String) : Value := .leaf (.global name)
@[match_pattern] abbrev list (items : List Value) : Value := .sequence .list items
@[match_pattern] abbrev tuple (items : List Value) : Value := .sequence .tuple items
@[match_pattern] abbrev set (items : List Value) : Value := .sequence .set items
@[match_pattern] abbrev frozenSet (items : List Value) : Value := .sequence .frozenSet items

instance : Inhabited Value := ⟨none⟩

def ofInt (i : Int) : Value :=
  if -2 ^ (63 : Nat) ≤ i ∧ i < 2 ^ (63 : Nat) then .int (Int64.ofInt i) else .bigInt i

def children : Value → List Value
  | .leaf _ => []
  | .sequence _ items => items
  | .dict entries => entries.flatMap fun (k, v) => [k, v]
  | .object _ body => body.children

def nests : Value → Bool
  | .leaf _ => false
  | _ => true

end Value

namespace Body

variable {α : Type} [SizeOf α]

theorem sizeOf_lt_of_mem_descriptor {d : Descriptor α} {c : α} (h : c ∈ d.children) :
    sizeOf c < sizeOf d := by
  obtain ⟨elementType, align, copy, _ | s⟩ := d
  · simp only [Descriptor.children, List.mem_cons, List.not_mem_nil, or_false] at h
    simp only [Descriptor.mk.sizeOf_spec]
    rcases h with rfl | rfl <;> omega
  · obtain ⟨a, b, c, d, e, f, g, h'⟩ := s
    simp only [Descriptor.children, DescriptorState.children, List.mem_cons, List.not_mem_nil,
      or_false] at h
    simp only [Descriptor.mk.sizeOf_spec, Option.some.sizeOf_spec, DescriptorState.mk.sizeOf_spec]
    rcases h with rfl | rfl | rfl | rfl | rfl | rfl | rfl | rfl | rfl | rfl <;> omega

theorem sizeOf_lt_of_mem {b : Body α} {c : α} (h : c ∈ b.children) : sizeOf c < sizeOf b := by
  cases b with
  | descriptor d =>
    have := sizeOf_lt_of_mem_descriptor (d := d) h
    simp only [descriptor.sizeOf_spec]
    omega
  | array a =>
    obtain ⟨layout, subtype, _ | d, shape, order, mmap, version, data⟩ := a
    · simp only [children, ArrayBody.children, List.mem_cons, List.not_mem_nil, or_false] at h
      subst h
      simp
      omega
    · simp only [children, ArrayBody.children, List.mem_cons] at h
      rcases h with rfl | h
      · simp
        omega
      · have := sizeOf_lt_of_mem_descriptor h
        simp
        omega
  | tree t =>
    obtain ⟨a, b, c, d, e, f, g⟩ := t
    simp only [children, TreeBody.children, List.mem_cons, List.not_mem_nil, or_false] at h
    rcases h with rfl | rfl | rfl | rfl | rfl | rfl | rfl <;> simp <;> omega
  | attributes entries =>
    simp only [children, List.mem_map] at h
    obtain ⟨⟨name, v⟩, hm, rfl⟩ := h
    have := List.sizeOf_lt_of_mem hm
    simp at this ⊢
    omega
  | unresolved => simp [children] at h

end Body

namespace Value

theorem sizeOf_lt_of_mem_children {v c : Value} (h : c ∈ v.children) : sizeOf c < sizeOf v := by
  cases v with
  | leaf l => simp [children] at h
  | sequence kind items =>
    have := List.sizeOf_lt_of_mem (show c ∈ items from h)
    simp only [sequence.sizeOf_spec]
    omega
  | dict entries =>
    simp only [children, List.mem_flatMap] at h
    obtain ⟨⟨k, w⟩, hm, hc⟩ := h
    have := List.sizeOf_lt_of_mem hm
    simp only [List.mem_cons, List.not_mem_nil, or_false] at hc
    rcases hc with rfl | rfl <;> simp at this ⊢ <;> omega
  | object typeName body =>
    have := Body.sizeOf_lt_of_mem (b := body) h
    simp only [object.sizeOf_spec]
    omega

/-- What holds of a value whenever it holds of its children holds of every value. -/
theorem childInduction {p : Value → Prop} (step : ∀ v, (∀ c ∈ v.children, p c) → p v) (v : Value) :
    p v :=
  step v fun c _ => childInduction step c
termination_by sizeOf v
decreasing_by exact sizeOf_lt_of_mem_children ‹_›

end Value

end PickledModel
