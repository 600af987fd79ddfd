import PickledModel.Object.Descriptor
import PickledModel.Process
import PickledModel.Tensor.Shape

/-!
# Arrays

Numeric arrays in two layouts. A wrapped array reads its payload from the
stream behind its state, after an optional run of padding; an inlined array
finds it in its state.
-/

set_option autoImplicit false

namespace PickledModel

def Value.descriptor? : Value → Option (Descriptor Value)
  | .object _ (.descriptor d) => some d
  | _ => .none

namespace ArrayBody

def make (layout : ArrayLayout) (args : List Value) : ArrayBody Value where
  layout := layout
  subtype := args[0]?.getD .none
  descriptor := none
  shape := (args[1]?.bind Value.shape?).getD []
  order := none
  allowMmap := none
  version := none
  data := []

def expectDescriptor (typeName : String) (v : Option Value) :
    Except LoadError (Descriptor Value) :=
  match v.bind Value.descriptor? with
  | some d => .ok d
  | none => .error (.malformedState typeName .noDescriptor)

def expectShape (typeName : String) (v : Option Value) : Except LoadError (List Nat) :=
  match v.bind Value.shape? with
  | some shape =>
    if shape.length ≤ maxDimensions then .ok shape
    else .error (.malformedState typeName (.dimensions shape.length))
  | none => .error (.malformedState typeName .noShape)

/-- The member whose presence announces padding before the payload. -/
def isPadded (state : Value) : Bool :=
  match state.get? "numpy_array_alignment_bytes" with
  | some v => !v.isNone
  | none => false

def skipPadding : Process Cursor Unit := do
  let n ← Process.read Cursor.u8
  Process.read (Cursor.skip n.toNat)

def restoreWrapped (typeName : String) (state : Value) :
    Process (ArrayBody Value × Cursor) Unit := do
  if state.kind ≠ .dict then
    throw (.malformedState typeName (.notDict state.kind))
  let d ← Process.ofExcept (expectDescriptor typeName (state.get? "dtype"))
  let shape ← Process.ofExcept (expectShape typeName (state.get? "shape"))
  modify fun (a, c) =>
    ({ a with
        subtype := (state.get? "subclass").getD .none
        order := (state.get? "order").bind Value.string?
        allowMmap := (state.get? "allow_mmap").bind Value.bool? }, c)
  match Shape.product? d.elementType.itemSize shape with
  | none => throw (.malformedState typeName .payloadOverflow)
  | some size =>
    if isPadded state then
      Process.onSecond skipPadding
    let data ← Process.onSecond (Process.read (Cursor.take size))
    modify fun (a, c) => ({ a with data, descriptor := some d, shape }, c)

def restoreInlined (typeName : String) (state : Value) : Process (ArrayBody Value) Unit := do
  match state.items? with
  | none => throw (.malformedState typeName (.notTuple state.kind))
  | some [version, shape, typeCode, columnMajor, raw] =>
    let d ← Process.ofExcept (expectDescriptor typeName (some typeCode))
    let shape ← Process.ofExcept (expectShape typeName (some shape))
    let order := if columnMajor.bool?.getD false then "F" else "C"
    modify fun a => { a with shape, version := version.int64?, order := some order }
    match raw.bytes? with
    | none => throw (.malformedState typeName (.payloadKind raw.kind))
    | some data => modify fun a => { a with data, descriptor := some d }
  | some items => throw (.malformedState typeName (.itemCount items.length))

def restore (typeName : String) (state : Value) : Process (ArrayBody Value × Cursor) Unit := do
  match (← get).1.layout with
  | .wrapped => restoreWrapped typeName state
  | .inlined => Process.on Prod.fst (fun a s => (a, s.2)) (restoreInlined typeName state)

/-- One element as a bare value; only 64-bit integers are known. -/
def scalar (typeName : String) (args : List Value) : Except LoadError Value := do
  let d ← expectDescriptor typeName args[0]?
  match args[1]?.bind Value.bytes? with
  | none => throw (.malformedState typeName .scalarKind)
  | some raw =>
    match d.elementType with
    | .int64 =>
      if 8 ≤ raw.length then return .int (Int64.ofInt (Word.signed (raw.take 8)))
      else throw (.malformedState typeName (.scalarLength 8 raw.length))
    | other => throw (.unknownElementType other.name)

end ArrayBody

end PickledModel
