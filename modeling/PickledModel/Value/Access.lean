import PickledModel.Members
import PickledModel.Text.Encoding
import PickledModel.Value.Basic

/-!
# Views of values

What a value is taken for where a number, a text, a byte run, a sequence or a
shape is asked for, and the named fields of an object.
-/

set_option autoImplicit false

namespace PickledModel
open scoped Natural

inductive Kind where
  | none
  | bool
  | int
  | float
  | str
  | bytes
  | list
  | tuple
  | dict
  | set
  | frozenSet
  | global
  | object
  deriving DecidableEq, Repr

def Kind.name : Kind → String
  | .none => "none"
  | .bool => "bool"
  | .int => "int"
  | .float => "float"
  | .str => "str"
  | .bytes => "bytes"
  | .list => "list"
  | .tuple => "tuple"
  | .dict => "dict"
  | .set => "set"
  | .frozenSet => "frozenset"
  | .global => "global"
  | .object => "object"

def Leaf.kind : Leaf → Kind
  | .none => .none
  | .bool _ => .bool
  | .int _ => .int
  | .bigInt _ => .int
  | .float _ => .float
  | .str _ => .str
  | .bytes _ => .bytes
  | .global _ => .global

def SequenceKind.kind : SequenceKind → Kind
  | .list => .list
  | .tuple => .tuple
  | .set => .set
  | .frozenSet => .frozenSet

def descriptorTypeName : String := "numpy.dtype"

namespace Value

def kind : Value → Kind
  | .leaf l => l.kind
  | .sequence k _ => k.kind
  | .dict _ => .dict
  | .object _ _ => .object

def isNone : Value → Bool
  | .none => true
  | _ => false

def string? : Value → Option String
  | .str s => some s
  | _ => .none

/-- A 64-bit integer; a truth value counts as 0 or 1. -/
def int64? : Value → Option Int64
  | .int i => some i
  | .bool b => some (if b then 1 else 0)
  | .bigInt i => if -2 ^ (63 : Nat) ≤ i ∧ i < 2 ^ (63 : Nat) then some (Int64.ofInt i) else .none
  | _ => .none

def bool? : Value → Option Bool
  | .bool b => some b
  | .int i => some (i != 0)
  | _ => .none

/-- The bytes of a byte run, or of a text in which every character has a code below 256. -/
def bytes? : Value → Option Bytes
  | .bytes bs => some bs
  | .str s => Text.latin1Bytes? s
  | _ => .none

def items? : Value → Option (List Value)
  | .list items => some items
  | .tuple items => some items
  | _ => .none

def object? : Value → Option (String × Body Value)
  | .object typeName body => some (typeName, body)
  | _ => .none

def get? (key : String) : Value → Option Value
  | .dict entries => (entries.find? fun e => e.1.string? == some key).map Prod.snd
  | _ => .none

def shape? (v : Value) : Option (List Nat) := do
  (← v.items?).mapM fun d => do
    let i := (← d.int64?).toInt
    if 0 ≤ i then some i.toNat else .none

end Value

def Descriptor.stateFields {α : Type} (s : DescriptorState α) : List (String × α) :=
  [("version", s.version), ("byteorder", s.byteOrder), ("subarray", s.subarray),
    ("names", s.names), ("fields", s.fields), ("elsize", s.elementSize),
    ("alignment", s.alignment), ("int_dtypeflags", s.flags)]

def Descriptor.fields (d : Descriptor Value) : List (String × Value) :=
  [("name", .str d.elementType.name), ("itemsize", .int (Int64.ofNat d.elementType.itemSize)),
    ("align", d.align), ("copy", d.copy)] ++ (d.state.map Descriptor.stateFields).getD []

def ArrayBody.descriptorValue (a : ArrayBody Value) : Value :=
  match a.descriptor with
  | none => .none
  | some d => .object descriptorTypeName (.descriptor d)

def ArrayBody.shapeValue (a : ArrayBody Value) : Value :=
  .tuple (a.shape.map fun d => .int (Int64.ofNat d))

def ArrayBody.fields (a : ArrayBody Value) : List (String × Value) :=
  match a.layout with
  | .wrapped =>
    [("subclass", a.subtype), ("dtype", a.descriptorValue), ("shape", a.shapeValue),
      ("order", (a.order.map Value.str).getD .none),
      ("allow_mmap", (a.allowMmap.map Value.bool).getD .none), ("data", .bytes a.data)]
  | .inlined =>
    [("subtype", a.subtype), ("shape", a.shapeValue),
      ("version", (a.version.map Value.int).getD .none), ("typecode", a.descriptorValue),
      ("is_f_order", .bool (a.order == some "F")), ("rawdata", .bytes a.data)]

def TreeBody.fields {α : Type} (t : TreeBody α) : List (String × α) :=
  [("n_features", t.featureCount), ("n_classes", t.classCounts), ("n_outputs", t.outputCount),
    ("max_depth", t.maxDepth), ("node_count", t.nodeCount), ("nodes", t.nodes),
    ("values", t.values)]

namespace Body

def fields : Body Value → List (String × Value)
  | .descriptor d => d.fields
  | .array a => a.fields
  | .tree t => t.fields
  | .attributes entries => entries
  | .unresolved => []

def field? (name : String) (b : Body Value) : Option Value := Members.get? name b.fields

def isResolved {α : Type} : Body α → Bool
  | .unresolved => false
  | _ => true

end Body

end PickledModel
