import PickledModel.Bytes.Cursor
import PickledModel.Fault
import PickledModel.Tensor.Content
import PickledModel.Tensor.Shape

/-!
# Decoding tensors

The content of a payload under a budget of elements. Elements are little-endian
and in row-major order. Once the budget is used up, the level at hand ends with
a cut, and so does each level around it at its next item.

Memory is unbounded here. An empty array counts as no element, so under a budget
of one or more the content of an int32[4611686018427387904,0] is a list that no
allocation holds; it is a value here, where a run would exhaust its memory.
-/

set_option autoImplicit false

namespace PickledModel
open scoped Natural

structure TensorType where
  elementType : ElementType
  shape : List Nat
  deriving DecidableEq, Repr

def TensorType.text (t : TensorType) : String :=
  t.elementType.name ++ "[" ++ ",".intercalate (t.shape.map toString) ++ "]"

def ArrayBody.tensorType? {α : Type} (a : ArrayBody α) : Option TensorType :=
  a.descriptor.map fun d => ⟨d.elementType, a.shape⟩

namespace Tensor

structure Progress where
  cursor : Cursor
  budget : Nat

def readScalar : ElementType → Option (Read Scalar)
  | .int32 => some (.int32 <$> Cursor.i32)
  | .int64 => some (.int64 <$> Cursor.i64)
  | .uint32 => some (.uint32 <$> Cursor.u32)
  | .uint64 => some (.uint64 <$> Cursor.u64)
  | .float32 => some (.float32 <$> Cursor.f32)
  | .float64 => some (.float64 <$> Cursor.f64)
  | .void _ => none

def element (t : ElementType) (p : Progress) : Except TensorError (Content × Progress) :=
  match readScalar t with
  | none => .error (.notImplemented t.name)
  | some read =>
    match read p.cursor with
    | .ok (s, cursor) => .ok (.scalar s, ⟨cursor, p.budget - 1⟩)
    | .error s =>
      .error (.tooShort (min (s.offset + s.needed) (2 ^ (64 : Nat) - 1)) (p.cursor.position + p.cursor.size))

def items (item : Progress → Except TensorError (Content × Progress)) :
    Nat → List Content → Progress → Except TensorError (Content × Progress)
  | 0, done, p => .ok (.array done.reverse, p)
  | n + 1, done, p =>
    if p.budget = 0 then .ok (.array (.cut :: done).reverse, p)
    else match item p with
      | .ok (c, p) => items item n (c :: done) p
      | .error e => .error e

def level (t : ElementType) : List Nat → Progress → Except TensorError (Content × Progress)
  | [], p => element t p
  | n :: shape, p => items (level t shape) n [] p

/-- The bytes that a payload needs at least; sizes end with the 64-bit words. -/
def needed (t : TensorType) : Nat :=
  ((Shape.count? t.shape).bind fun n =>
    let size := n * t.elementType.itemSize
    if size < 2 ^ (64 : Nat) then some size else none).getD (2 ^ (64 : Nat) - 1)

def check (t : TensorType) (data : Bytes) : Except TensorError Unit :=
  if maxDimensions < t.shape.length then .error (.dimensions t.shape.length)
  else if data.isEmpty ∧ Shape.count? t.shape ≠ some 0 then .error .empty
  else match t.elementType with
    | .void bits => .error (.notImplemented (ElementType.void bits).name)
    | _ =>
      if data.length < needed t then .error (.tooShort (needed t) data.length) else .ok ()

def decode (t : TensorType) (data : Bytes) (budget : Nat) : Except TensorError Content := do
  check t data
  if t.shape = [] ∧ budget = 0 then return .cut
  else return (← level t.elementType t.shape ⟨.ofBytes data, budget⟩).1

end Tensor

def TensorError.message : TensorError → String
  | .noType => "Tensor has no data type."
  | .empty => "Tensor data is empty."
  | .bigEndian => "Tensor data is big-endian."
  | .notImplemented typeName => s!"Tensor data type '{typeName}' is not implemented."
  | .dimensions found => s!"Tensor has {found} dimensions, more than {maxDimensions}."
  | .tooShort expected actual =>
    s!"Tensor data is too short: expected {expected} bytes, found {actual}."

end PickledModel
