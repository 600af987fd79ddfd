import PickledModel.Text.Numeral

/-!
# Element types

The types of tensor elements with their canonical names, and the errors that
keep the content of a tensor from being shown.
-/

set_option autoImplicit false

namespace PickledModel
open scoped Natural

/-- An element type; a record is known by its width in bits only. -/
inductive ElementType where
  | int32
  | int64
  | float32
  | float64
  | uint32
  | uint64
  | void (bits : Nat)
  deriving DecidableEq, Repr

namespace ElementType

def itemSize : ElementType → Nat
  | .int32 | .uint32 | .float32 => 4
  | .int64 | .uint64 | .float64 => 8
  | .void bits => bits / 8

def name : ElementType → String
  | .int32 => "int32"
  | .int64 => "int64"
  | .float32 => "float32"
  | .float64 => "float64"
  | .uint32 => "uint32"
  | .uint64 => "uint64"
  | .void bits => "void" ++ toString bits

def width? (ds : List Char) : Option Nat := Text.natural? (2 ^ (64 : Nat)) ds

def ofName? (s : String) : Option ElementType :=
  match s with
  | "int32" => some .int32
  | "int64" => some .int64
  | "float32" => some .float32
  | "float64" => some .float64
  | "uint32" => some .uint32
  | "uint64" => some .uint64
  | _ => match s.toList with
    | 'v' :: 'o' :: 'i' :: 'd' :: ds => (width? ds).map void
    | _ => none

/-- The element type that a short type code names. A record is named by its
bytes, and its bits have to be a 64-bit word. -/
def ofCode? (code : String) : Option ElementType :=
  match code with
  | "i4" => some .int32
  | "i8" => some .int64
  | "f4" => some .float32
  | "f8" => some .float64
  | _ => match code.toList with
    | 'V' :: ds => ((width? ds).filter (8 * · < 2 ^ (64 : Nat))).map fun n => void (8 * n)
    | _ => none

/-- A word of eight bits per byte gives the bytes back. -/
theorem itemSize_void (n : Nat) : (void (8 * n)).itemSize = n := by
  simp [itemSize]

end ElementType

inductive TensorError where
  | noType
  | empty
  | bigEndian
  | notImplemented (typeName : String)
  | dimensions (found : Nat)
  | tooShort (expected actual : Nat)
  deriving DecidableEq, Repr

end PickledModel
