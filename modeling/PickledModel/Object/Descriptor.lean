import PickledModel.Fault

/-!
# Element descriptors

Descriptors of array elements, made from a short type code and completed by a
state of eight items.
-/

set_option autoImplicit false

namespace PickledModel.Descriptor

def code? : Value → Except LoadError String
  | .str s => .ok s
  | .bytes bs => .ok (Text.utf8Lossy bs)
  | v => .error (.unknownElementType s!"<{v.kind.name}>")

def resolve (code : String) : Except LoadError ElementType :=
  match ElementType.ofCode? code with
  | some t => .ok t
  | none => .error (.unknownElementType code)

def make (args : List Value) : Except LoadError (Descriptor Value) := do
  let t ← resolve (← code? (args[0]?.getD .none))
  return ⟨t, args[1]?.getD .none, args[2]?.getD .none, none⟩

def restore (d : Descriptor Value) (state : Value) : Except LoadError (Descriptor Value) :=
  match state.items? with
  | none => .error (.malformedState descriptorTypeName (.notTuple state.kind))
  | some [version, byteOrder, subarray, names, fields, elementSize, alignment, flags] =>
    let completed : DescriptorState Value :=
      ⟨version, byteOrder, subarray, names, fields, elementSize, alignment, flags⟩
    .ok { d with state := some completed }
  | some items => .error (.descriptorState items.length)

def isBigEndian (d : Descriptor Value) : Bool :=
  match d.state with
  | some s => s.byteOrder.string? == some ">"
  | none => false

end PickledModel.Descriptor
