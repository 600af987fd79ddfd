import PickledModel.Json.Equivalence
import PickledModel.Metadata.Schema

/-!
# Operator metadata

The schemas of operators by name, and what they decide: whether an attribute is
worth showing, the documentation of an operator, and its category.
-/

set_option autoImplicit false

namespace PickledModel

structure Metadata where
  schemas : List (String × OperatorSchema)

namespace Metadata

open Json Json.Fragment

def empty : Metadata := ⟨[]⟩

def entry? : Fragment (Option String × Option OperatorSchema)
  | levels + 1, .object ms => do
    let ms ← members ms
    return (← member levels ms "name" (optional string) (some none),
      ← member levels ms "schema" (optional OperatorSchema.ofRaw?) (some none))
  | levels + 1, .array items => do
    if 2 < items.length then none
    return (← item levels items 0 (optional string) (some none),
      ← item levels items 1 (optional OperatorSchema.ofRaw?) (some none))
  | _, _ => none

def ofEntries (entries : List (Option String × Option OperatorSchema)) : Metadata where
  schemas := Members.ofList (entries.filterMap fun
    | (some name, some schema) => some (name, schema)
    | _ => none)

def parse? (s : String) : Option Metadata := do
  let entries ← optional (array entry?) maxLevels (← Raw.parse? s)
  return ofEntries (entries.getD [])

def schema? (m : Metadata) (operator : String) : Option OperatorSchema :=
  Members.get? operator m.schemas

def attribute? (m : Metadata) (operator name : String) : Option AttributeSchema :=
  (m.schema? operator).bind fun s => s.attributes.find? (·.name == name)

/-- Whether an attribute with this value is worth showing: an optional one is
not while it is null; else the schema may say so; else it is not while it has
its default value. -/
def isVisible (m : Metadata) (operator name : String) (value : Json) : Bool :=
  match m.attribute? operator name with
  | none => true
  | some a =>
    if a.option = some "optional" ∧ value.isNull then false
    else match a.visible, a.default with
      | some visible, _ => visible
      | none, some default => !default.equivalent value
      | none, none => true

def documentation? (m : Metadata) (operator : String) : Option OperatorSchema :=
  (m.schema? operator).map fun s => { s with name := some operator }

def category? (m : Metadata) (operator : String) : Option String :=
  ((m.schema? operator).bind OperatorSchema.category).filter (· ≠ "")

end Metadata

end PickledModel
