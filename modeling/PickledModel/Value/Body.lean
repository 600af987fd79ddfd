import PickledModel.Bytes.Word
import PickledModel.Tensor.ElementType

/-!
# Object bodies

What a rebuilt object is made of, over the type of the values inside it: an
element descriptor, an array, a decision tree, a list of attributes, or nothing
when the type of the object is unknown.
-/

set_option autoImplicit false

namespace PickledModel

structure DescriptorState (α : Type) where
  version : α
  byteOrder : α
  subarray : α
  names : α
  fields : α
  elementSize : α
  alignment : α
  flags : α
  deriving DecidableEq, Repr

structure Descriptor (α : Type) where
  elementType : ElementType
  align : α
  copy : α
  state : Option (DescriptorState α)
  deriving DecidableEq, Repr

/-- Where the payload of an array stands: in the stream behind its state, or in the state. -/
inductive ArrayLayout where
  | wrapped
  | inlined
  deriving DecidableEq, Repr

def ArrayLayout.label : ArrayLayout → String
  | .wrapped => "Array Wrapper"
  | .inlined => "Array"

structure ArrayBody (α : Type) where
  layout : ArrayLayout
  subtype : α
  descriptor : Option (Descriptor α)
  shape : List Nat
  order : Option String
  allowMmap : Option Bool
  version : Option Int64
  data : Bytes
  deriving DecidableEq, Repr

structure TreeBody (α : Type) where
  featureCount : α
  classCounts : α
  outputCount : α
  maxDepth : α
  nodeCount : α
  nodes : α
  values : α
  deriving DecidableEq, Repr

inductive Body (α : Type) where
  | descriptor (d : Descriptor α)
  | array (a : ArrayBody α)
  | tree (t : TreeBody α)
  | attributes (entries : List (String × α))
  | unresolved
  deriving DecidableEq, Repr

variable {α β : Type}

def DescriptorState.children (s : DescriptorState α) : List α :=
  [s.version, s.byteOrder, s.subarray, s.names, s.fields, s.elementSize, s.alignment, s.flags]

def Descriptor.children (d : Descriptor α) : List α :=
  d.align :: d.copy :: match d.state with
    | none => []
    | some s => s.children

def ArrayBody.children (a : ArrayBody α) : List α :=
  a.subtype :: match a.descriptor with
    | none => []
    | some d => d.children

def TreeBody.children (t : TreeBody α) : List α :=
  [t.featureCount, t.classCounts, t.outputCount, t.maxDepth, t.nodeCount, t.nodes, t.values]

def Body.children : Body α → List α
  | .descriptor d => d.children
  | .array a => a.children
  | .tree t => t.children
  | .attributes entries => entries.map Prod.snd
  | .unresolved => []

def DescriptorState.map (f : α → β) (s : DescriptorState α) : DescriptorState β :=
  ⟨f s.version, f s.byteOrder, f s.subarray, f s.names, f s.fields, f s.elementSize,
    f s.alignment, f s.flags⟩

def Descriptor.map (f : α → β) (d : Descriptor α) : Descriptor β :=
  ⟨d.elementType, f d.align, f d.copy, d.state.map (·.map f)⟩

def ArrayBody.map (f : α → β) (a : ArrayBody α) : ArrayBody β :=
  ⟨a.layout, f a.subtype, a.descriptor.map (·.map f), a.shape, a.order, a.allowMmap, a.version,
    a.data⟩

def TreeBody.map (f : α → β) (t : TreeBody α) : TreeBody β :=
  ⟨f t.featureCount, f t.classCounts, f t.outputCount, f t.maxDepth, f t.nodeCount, f t.nodes,
    f t.values⟩

def Body.map (f : α → β) : Body α → Body β
  | .descriptor d => .descriptor (d.map f)
  | .array a => .array (a.map f)
  | .tree t => .tree (t.map f)
  | .attributes entries => .attributes (entries.map fun (name, v) => (name, f v))
  | .unresolved => .unresolved

theorem Descriptor.children_map (f : α → β) (d : Descriptor α) :
    (d.map f).children = d.children.map f := by
  obtain ⟨_, _, _, _ | s⟩ := d <;> rfl

theorem ArrayBody.children_map (f : α → β) (a : ArrayBody α) :
    (a.map f).children = a.children.map f := by
  obtain ⟨_, _, _ | d, _, _, _, _, _⟩ := a
  · rfl
  · exact congrArg (f _ :: ·) (d.children_map f)

theorem Body.children_map (f : α → β) (b : Body α) : (b.map f).children = b.children.map f := by
  cases b with
  | descriptor d => exact d.children_map f
  | array a => exact a.children_map f
  | tree t => rfl
  | attributes entries => simp [Body.map, Body.children]
  | unresolved => rfl

end PickledModel
