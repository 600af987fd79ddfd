import PickledModel.Object.Registry
import PickledModel.Value.Distinct

/-!
# Calls

What calling a global with arguments gives. A few names rebuild plain values, a
scalar is decoded at once, and every other name goes to the registry; a name
that the registry does not know gives an empty object and is reported.
-/

set_option autoImplicit false

namespace PickledModel.Call

/-- Names that build an object of the class they are given first. -/
def reconstructors : List String := ["copy_reg._reconstructor", "copyreg._reconstructor"]

def baseObjects : List String := ["__builtin__.object", "builtins.object"]

def scalars : List String :=
  ["numpy.core.multiarray.scalar", "numpy._core.multiarray.scalar"]

def target (name : String) (args : List Value) : String × List Value :=
  match args with
  | .global cls :: .global base :: _ =>
    if name ∈ reconstructors ∧ base ∈ baseObjects then (cls, []) else (name, args)
  | _ => (name, args)

inductive Builtin where
  | encode
  | bytes
  | orderedDict
  | set
  | frozenSet
  deriving DecidableEq, Repr

def builtin? (name : String) : Option Builtin :=
  match name with
  | "_codecs.encode" => some .encode
  | "__builtin__.bytearray" | "builtins.bytearray" => some .bytes
  | "__builtin__.bytes" | "builtins.bytes" => some .bytes
  | "collections.OrderedDict" => some .orderedDict
  | "__builtin__.set" | "builtins.set" => some .set
  | "__builtin__.frozenset" | "builtins.frozenset" => some .frozenSet
  | _ => none

def firstItems (name : String) : List Value → Except LoadError (List Value)
  | [] => .ok []
  | v :: _ =>
    match v.items? with
    | some items => .ok items
    | none => .error (.malformedState name .noSequence)

def entry (name : String) (v : Value) : Except LoadError (Value × Value) :=
  match v.items? with
  | some [key, value] => .ok (key, value)
  | _ => .error (.malformedState name .noEntry)

def Builtin.apply (name : String) : Builtin → List Value → Except LoadError Value
  | .encode, .str s :: _ =>
    match Text.latin1Bytes? s with
    | some bs => .ok (.bytes bs)
    | none => .error (.malformedState name .notLatin1)
  | .encode, .bytes bs :: _ => .ok (.bytes bs)
  | .encode, _ => .error (.malformedState name .noString)
  | .bytes, [] => .ok (.bytes [])
  | .bytes, v :: _ =>
    match v.bytes? with
    | some bs => .ok (.bytes bs)
    | none => .error (.malformedState name .noBytes)
  | .orderedDict, [] => .ok (.dict [])
  | .orderedDict, [v] =>
    match v.items? with
    | some items => .dict <$> items.mapM (entry name)
    | none => .error (.malformedState name .noEntries)
  | .orderedDict, _ => .error (.malformedState name .tooManyArguments)
  | .set, args => (fun items => .set (Value.distinctItems items)) <$> firstItems name args
  | .frozenSet, args =>
    (fun items => .frozenSet (Value.distinctItems items)) <$> firstItems name args

structure Outcome where
  value : Value
  unresolved : Option String

def build (r : Registry) (name : String) (args : List Value) : Except LoadError Outcome :=
  match r.resolve? name with
  | some b => do return ⟨.object name (← b.make args), none⟩
  | none => .ok ⟨.object name .unresolved, some name⟩

def run (r : Registry) (name : String) (args : List Value) : Except LoadError Outcome :=
  let (name, args) := target name args
  if name ∈ scalars then do return ⟨← ArrayBody.scalar name args, none⟩
  else match builtin? name with
    | some b => do return ⟨← b.apply name args, none⟩
    | none => build r name args

end PickledModel.Call
