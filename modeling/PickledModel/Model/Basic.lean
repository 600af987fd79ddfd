import PickledModel.Metadata.Basic
import PickledModel.Model.Initializer
import PickledModel.Text.Segment
import PickledModel.Value.Json

/-!
# Models

A loaded root object as a model: one graph of one node. Array fields of the root
become initializers and all other fields attributes; fields whose name starts
with an underscore are internal and left out.
-/

set_option autoImplicit false

namespace PickledModel

def Value.displayText : Value → String
  | .int i => toString i.toInt
  | .bigInt i => toString i
  | v => v.toJson.compact

structure Attribute where
  name : String
  value : Value
  visible : Bool

structure Argument where
  name : String
  connections : List Initializer

structure Node where
  operator : String
  typeName : String
  resolved : Bool
  attributes : List Attribute
  initializers : List Initializer
  documentation : Option OperatorSchema
  category : Option String

structure Graph where
  nodes : List Node
  inputs : List Argument
  outputs : List Argument

structure Model where
  format : String
  graphs : List Graph

namespace Node

def isInternal (name : String) : Bool := name.toList.head? == some '_'

def array? : Value → Option (ArrayBody Value)
  | .object _ (.array a) => some a
  | _ => none

def fields (body : Body Value) : List (String × Value) :=
  body.fields.filter fun (name, _) => !isInternal name

def ofObject (typeName : String) (body : Body Value) (m : Metadata) (previewBudget : Nat) : Node :=
  let operator := Text.afterLast '.' typeName
  { operator
    typeName
    resolved := body.isResolved
    attributes := (fields body).filterMap fun (name, v) =>
      match array? v with
      | some _ => none
      | none => some ⟨name, v, m.isVisible operator name v.toJson⟩
    initializers := (fields body).filterMap fun (name, v) =>
      (array? v).map fun a => .ofArray name a previewBudget
    documentation := m.documentation? operator
    category := m.category? operator }

def inputs (n : Node) : List Argument := n.initializers.map fun t => ⟨t.name, [t]⟩

def outputs (_ : Node) : List Argument := []

end Node

namespace Model

def formatOf (body : Body Value) : String :=
  match body.field? "_sklearn_version" with
  | some (.str version) => "scikit-learn " ++ version
  | some .none | none => "scikit-learn"
  | some version => "scikit-learn " ++ version.displayText

def ofObject (typeName : String) (body : Body Value) (m : Metadata) (previewBudget : Nat) : Model where
  format := formatOf body
  graphs := [⟨[.ofObject typeName body m previewBudget], [], []⟩]

end Model

end PickledModel
