import PickledModel.Json.Printer
import PickledModel.Tensor.ElementType

/-!
# Tensor content

Decoded elements in nested arrays, and their two texts: JSON, and one element
per line, which keeps 64-bit integers exact for every reader.
-/

set_option autoImplicit false

namespace PickledModel.Tensor

inductive Scalar where
  | int32 (i : Int32)
  | int64 (i : Int64)
  | uint32 (n : UInt32)
  | uint64 (n : UInt64)
  | float32 (x : Binary32)
  | float64 (x : Binary64)
  deriving DecidableEq, Repr

/-- Elements in nested arrays; a cut stands for the rest of its array. -/
inductive Content where
  | scalar (s : Scalar)
  | array (items : List Content)
  | cut

/-- In plain text a float is never in scientific form, a whole one has no point,
and a tie goes up. -/
def plainNumber : NumberText := ⟨fun _ => true, false, .up⟩

namespace Scalar

def text : Scalar → String
  | .int32 i => toString i.toInt
  | .int64 i => toString i.toInt
  | .uint32 n => toString n.toNat
  | .uint64 n => toString n.toNat
  | .float32 x => plainNumber.ofMagnitude .binary32 x.negative x.magnitude
  | .float64 x => plainNumber.ofMagnitude .binary64 x.negative x.magnitude

def toJson : Scalar → Json
  | .int32 i => .ofInt64 i.toInt64
  | .int64 i => .ofInt64 i
  | .uint32 n => .ofUInt64 n.toUInt64
  | .uint64 n => .ofUInt64 n
  | .float32 x => .ofFloat x.widen
  | .float64 x => .ofFloat x

end Scalar

namespace Content

def toJson : Content → Json
  | .scalar s => s.toJson
  | .array items => .array (items.map toJson)
  | .cut => .string "..."

/-- One element per line behind `margin`, the brackets of an array on lines of
their own at the very left and its items `indent` further in. -/
def lines (indent margin : String) : Content → String
  | .scalar s => margin ++ s.text
  | .array items =>
    "[\n" ++ (if items.isEmpty then "" else
      ",\n".intercalate (items.map fun c => lines indent (margin ++ indent) c) ++ "\n") ++ "]"
  | .cut => margin ++ "..."

def items? : Content → Option (List Content)
  | .array items => some items
  | _ => none

def text (c : Content) : String := c.lines "    " ""

end Content

end PickledModel.Tensor
