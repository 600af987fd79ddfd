import PickledModel.Object.Array
import PickledModel.Tensor.Payload

/-!
# Initializers

Array fields of a model, decoded when they are asked for.
-/

set_option autoImplicit false

namespace PickledModel
open scoped Natural

structure Initializer where
  name : String
  layout : ArrayLayout
  type : Option TensorType
  data : Bytes
  bigEndian : Bool
  previewBudget : Nat

namespace Initializer

def ofArray (name : String) (a : ArrayBody Value) (previewBudget : Nat) : Initializer where
  name := name
  layout := a.layout
  type := a.tensorType?
  data := a.data
  bigEndian := (a.descriptor.map Descriptor.isBigEndian).getD false
  previewBudget := previewBudget

/-- The type of a tensor whose content can be decoded; a budget of nothing checks
the payload without decoding it. -/
def decodable (t : Initializer) : Except TensorError TensorType :=
  match t.type with
  | none => .error .noType
  | some type =>
    if t.bigEndian then .error .bigEndian
    else (fun _ => type) <$> Tensor.decode type t.data 0

def state? (t : Initializer) : Option TensorError :=
  match t.decodable with
  | .ok _ => none
  | .error e => some e

def value (t : Initializer) : Except TensorError Tensor.Content := do
  let type ← t.decodable
  Tensor.decode type t.data (2 ^ (64 : Nat) - 1)

/-- The text of the first elements: one per line for 64-bit integers, and
indented JSON for everything else. -/
def preview (t : Initializer) : Except TensorError String := do
  let type ← t.decodable
  let content ← Tensor.decode type t.data t.previewBudget
  match type.elementType with
  | .int64 | .uint64 => return content.text
  | _ => return content.toJson.pretty "    " ""

def text (t : Initializer) : String :=
  match t.preview with
  | .ok s => s
  | .error _ => ""

end Initializer

end PickledModel
