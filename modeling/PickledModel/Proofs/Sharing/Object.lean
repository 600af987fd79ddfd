import PickledModel.Object.Call
import PickledModel.Proofs.Process.Outcome
import PickledModel.Proofs.Sharing.Heap

/-! Objects of a heap: how the known names build them from references, and how a
state is given to them. Nothing that a reference leads to is copied. -/

set_option autoImplicit false

namespace PickledModel

def Ref.read {β : Type} (f : Value → Option β) : Ref → Option β
  | .leaf l => f (.leaf l)
  | .cell _ => none

def members (entries : List (Ref × Ref)) : List (String × Ref) :=
  Members.ofList (entries.filterMap fun e => (e.1.read Value.string?).map (·, e.2))

def Value.dimension? (v : Value) : Option Nat := do
  let i := (← v.int64?).toInt
  if 0 ≤ i then some i.toNat else .none

def DescriptorState.ofList? {α : Type} : List α → Option (DescriptorState α)
  | [version, byteOrder, subarray, names, fields, elementSize, alignment, flags] =>
    some ⟨version, byteOrder, subarray, names, fields, elementSize, alignment, flags⟩
  | _ => none

namespace Heap

variable (h : Heap)

def layer? : Ref → Option (Layer Ref)
  | .leaf l => some (.leaf l)
  | .cell a => h[a]?

def items? (r : Ref) : Option (List Ref) :=
  match h.layer? r with
  | some (.sequence .list items) => some items
  | some (.sequence .tuple items) => some items
  | _ => none

def entries? (r : Ref) : Option (List (Ref × Ref)) :=
  match h.layer? r with
  | some (.dict entries) => some entries
  | _ => none

def descriptor? (r : Ref) : Option (Descriptor Ref) :=
  match h.layer? r with
  | some (.object _ (.descriptor d)) => some d
  | _ => none

def shape? (r : Ref) : Option (List Nat) := do
  (← h.items? r).mapM fun d => d.read Value.dimension?

def arrayShape? (r : Ref) : Option (List Nat) :=
  (h.shape? r).filter fun shape => shape.length ≤ maxDimensions

def restoreDescriptor (d : Descriptor Ref) (state : Ref) : Option (Descriptor Ref) := do
  let s ← DescriptorState.ofList? (← h.items? state)
  return { d with state := some s }

def isPadded (ms : List (String × Ref)) : Bool :=
  match Members.get? "numpy_array_alignment_bytes" ms with
  | some r => r ≠ .leaf .none
  | none => false

def restoreWrapped (a : ArrayBody Ref) (state : Ref) (c : Cursor) :
    Option (ArrayBody Ref × Cursor) := do
  let ms := members (← h.entries? state)
  let d ← (Members.get? "dtype" ms).bind h.descriptor?
  let shape ← (Members.get? "shape" ms).bind h.arrayShape?
  let size ← Shape.product? d.elementType.itemSize shape
  let (_, c) ← if isPadded ms then ArrayBody.skipPadding.result? c else some ((), c)
  let (data, c) ← (Process.read (Cursor.take size)).result? c
  return ({ a with
    subtype := (Members.get? "subclass" ms).getD (.leaf .none)
    order := (Members.get? "order" ms).bind (Ref.read Value.string?)
    allowMmap := (Members.get? "allow_mmap" ms).bind (Ref.read Value.bool?)
    data, descriptor := some d, shape }, c)

def restoreInlined (a : ArrayBody Ref) (state : Ref) : Option (ArrayBody Ref) := do
  match ← h.items? state with
  | [version, shape, typeCode, columnMajor, raw] =>
    let d ← h.descriptor? typeCode
    let shape ← h.arrayShape? shape
    let data ← raw.read Value.bytes?
    let order := if (columnMajor.read Value.bool?).getD false then "F" else "C"
    return { a with
      shape, version := version.read Value.int64?, order := some order, data,
      descriptor := some d }
  | _ => none

def restoreTree (t : TreeBody Ref) (state : Ref) : Option (TreeBody Ref) := do
  let ms := members (← h.entries? state)
  return { t with
    maxDepth := (Members.get? "max_depth" ms).getD (.leaf .none)
    nodeCount := (Members.get? "node_count" ms).getD (.leaf .none)
    nodes := (Members.get? "nodes" ms).getD (.leaf .none)
    values := (Members.get? "values" ms).getD (.leaf .none) }

def mergeState : Nat → Ref → List (String × Ref) → Option (List (String × Ref))
  | 0, _, _ => none
  | fuel + 1, state, attributes =>
    match h.layer? state with
    | some (.leaf .none) => some attributes
    | some (.dict entries) =>
      if entries.all fun e => (e.1.read Value.string?).isSome then
        some (Members.update attributes (members entries))
      else none
    | some (.sequence .tuple [state, slots]) => do
      mergeState fuel slots (← mergeState fuel state attributes)
    | _ => none

def restore (state : Ref) (body : Body Ref) (c : Cursor) : Option (Body Ref × Cursor) :=
  match body with
  | .descriptor d => (h.restoreDescriptor d state).map (.descriptor ·, c)
  | .array a =>
    match a.layout with
    | .wrapped => (h.restoreWrapped a state c).map fun (a, c) => (.array a, c)
    | .inlined => (h.restoreInlined a state).map (.array ·, c)
  | .tree t => (h.restoreTree t state).map (.tree ·, c)
  | .attributes attributes => (h.mergeState (maxNesting + 1) state attributes).map (.attributes ·, c)
  | .unresolved => some (.unresolved, c)

def firstItems : List Ref → Option (List Ref)
  | [] => some []
  | r :: _ => h.items? r

def entry (r : Ref) : Option (Ref × Ref) :=
  match h.items? r with
  | some [key, value] => some (key, value)
  | _ => none

def applyBuiltin : Call.Builtin → List Ref → Option (Layer Ref)
  | .encode, [] => none
  | .bytes, [] => some (.leaf (.bytes []))
  | .encode, r :: _ | .bytes, r :: _ => (r.read Value.bytes?).map fun bs => .leaf (.bytes bs)
  | .orderedDict, [] => some (.dict [])
  | .orderedDict, [r] => do return .dict (← (← h.items? r).mapM h.entry)
  | .orderedDict, _ => none
  | .set, args => (h.firstItems args).map (.sequence .set)
  | .frozenSet, args => (h.firstItems args).map (.sequence .frozenSet)

def scalar (args : List Ref) : Option Leaf := do
  let d ← args[0]?.bind h.descriptor?
  let raw ← args[1]?.bind (Ref.read Value.bytes?)
  if d.elementType = .int64 ∧ 8 ≤ raw.length then
    some (.int (Int64.ofInt (Word.signed (raw.take 8))))
  else none

def makeDescriptor (args : List Ref) : Option (Descriptor Ref) := do
  let code ← (args[0]?.getD (Ref.leaf .none)).read fun v => (Descriptor.code? v).toOption
  let t ← (Descriptor.resolve code).toOption
  return ⟨t, args[1]?.getD (.leaf .none), args[2]?.getD (.leaf .none), none⟩

def makeArray (layout : ArrayLayout) (args : List Ref) : ArrayBody Ref where
  layout := layout
  subtype := args[0]?.getD (.leaf .none)
  descriptor := none
  shape := (args[1]?.bind h.shape?).getD []
  order := none
  allowMmap := none
  version := none
  data := []

def makeTree (args : List Ref) : TreeBody Ref where
  featureCount := args[0]?.getD (.leaf .none)
  classCounts := args[1]?.getD (.leaf .none)
  outputCount := args[2]?.getD (.leaf .none)
  maxDepth := .leaf .none
  nodeCount := .leaf .none
  nodes := .leaf .none
  values := .leaf .none

def make : Builder → List Ref → Option (Body Ref)
  | .descriptor, args => (makeDescriptor args).map .descriptor
  | .wrappedArray, args => some (.array (h.makeArray .wrapped args))
  | .inlinedArray, args => some (.array (h.makeArray .inlined args))
  | .tree, args => some (.tree (makeTree args))
  | .attributes, _ => some (.attributes [])

def target (name : String) (args : List Ref) : String × List Ref :=
  match args with
  | .leaf (.global cls) :: .leaf (.global base) :: _ =>
    if name ∈ Call.reconstructors ∧ base ∈ Call.baseObjects then (cls, []) else (name, args)
  | _ => (name, args)

def call (r : Registry) (name : String) (args : List Ref) : Option (Layer Ref × Option String) :=
  let (name, args) := target name args
  if name ∈ Call.scalars then (h.scalar args).map fun l => (.leaf l, none)
  else match Call.builtin? name with
    | some b => (h.applyBuiltin b args).map fun n => (n, none)
    | none => match r.resolve? name with
      | some b => (h.make b args).map fun body => (.object name body, none)
      | none => some (.object name .unresolved, some name)

end Heap

end PickledModel
