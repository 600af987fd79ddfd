import PickledModel.Json.Printer
import PickledModel.Json.Reader

/-!
# Operator schemas

What a metadata document says of an operator and its attributes, how a schema is
read from a tree, and the document that writes it. Reading refuses a known
member that is repeated; a default that is null is kept apart from no default.
-/

set_option autoImplicit false

namespace PickledModel

structure AttributeSchema where
  name : String
  type : Option String
  description : Option String
  option : Option String
  visible : Option Bool
  default : Option Json

/-- The schema of an operator; `extra` holds the members that have no meaning here. -/
structure OperatorSchema where
  name : Option String
  description : Option String
  category : Option String
  attributes : List AttributeSchema
  inputs : List Json
  outputs : List Json
  references : List Json
  extra : List (String × Json)

/-- Reading parts of a tree: a number of levels that may still be opened, and the tree. -/
abbrev Json.Fragment (α : Type) := Nat → Json.Raw → Option α

namespace Json.Fragment

variable {α : Type}

def string : Fragment String
  | _, .string s => text? s
  | _, _ => none

def bool : Fragment Bool
  | _, .bool b => some b
  | _, _ => none

def document : Fragment Json := ofRaw?

def optional (p : Fragment α) : Fragment (Option α)
  | _, .null => some none
  | levels, r => (p levels r).map some

def array (p : Fragment α) : Fragment (List α)
  | levels + 1, .array items => items.mapM (p levels)
  | _, _ => none

def members (ms : List (List StringUnit × Raw)) : Option (List (String × Raw)) :=
  ms.mapM fun (name, r) => do return (← text? name, r)

def member (levels : Nat) (ms : List (String × Raw)) (name : String) (p : Fragment α)
    (default : Option α) : Option α :=
  match ms.filter (·.1 == name) with
  | [] => default
  | [(_, r)] => p levels r
  | _ => none

def item (levels : Nat) (items : List Raw) (i : Nat) (p : Fragment α) (default : Option α) : Option α :=
  match items[i]? with
  | some r => p levels r
  | none => default

end Json.Fragment

namespace AttributeSchema

open Json Json.Fragment

def ofRaw? : Fragment AttributeSchema
  | levels + 1, .object ms => do
    let ms ← members ms
    return {
      name := ← member levels ms "name" string none
      type := ← member levels ms "type" (optional string) (some none)
      description := ← member levels ms "description" (optional string) (some none)
      option := ← member levels ms "option" (optional string) (some none)
      visible := ← member levels ms "visible" (optional bool) (some none)
      default := ← member levels ms "default" (fun n r => (document n r).map some) (some none) }
  | levels + 1, .array items => do
    if 6 < items.length then none
    return {
      name := ← item levels items 0 string none
      type := ← item levels items 1 (optional string) (some none)
      description := ← item levels items 2 (optional string) (some none)
      option := ← item levels items 3 (optional string) (some none)
      visible := ← item levels items 4 (optional bool) (some none)
      default := ← item levels items 5 (fun n r => (document n r).map some) (some none) }
  | _, _ => none

def toJson (a : AttributeSchema) : Json :=
  .object ([("name", .string a.name)]
    ++ (a.type.map fun s => ("type", Json.string s)).toList
    ++ (a.description.map fun s => ("description", Json.string s)).toList
    ++ (a.option.map fun s => ("option", Json.string s)).toList
    ++ (a.visible.map fun b => ("visible", Json.bool b)).toList
    ++ (a.default.map fun j => ("default", j)).toList)

end AttributeSchema

namespace OperatorSchema

open Json Json.Fragment

def known : List String :=
  ["name", "description", "category", "attributes", "inputs", "outputs", "references"]

def ofRaw? : Fragment OperatorSchema
  | levels + 1, .object ms => do
    let ms ← members ms
    let extra ← (ms.filter fun m => !known.contains m.1).mapM fun (name, r) => do
      return (name, ← document levels r)
    return {
      name := ← member levels ms "name" (optional string) (some none)
      description := ← member levels ms "description" (optional string) (some none)
      category := ← member levels ms "category" (optional string) (some none)
      attributes := ← member levels ms "attributes" (array AttributeSchema.ofRaw?) (some [])
      inputs := ← member levels ms "inputs" (array document) (some [])
      outputs := ← member levels ms "outputs" (array document) (some [])
      references := ← member levels ms "references" (array document) (some [])
      extra := Members.ofList extra }
  | _, _ => none

def listMember (name : String) (items : List Json) : List (String × Json) :=
  if items.isEmpty then [] else [(name, .array items)]

def toJson (s : OperatorSchema) : Json :=
  .object ((s.name.map fun t => ("name", Json.string t)).toList
    ++ (s.description.map fun t => ("description", Json.string t)).toList
    ++ (s.category.map fun t => ("category", Json.string t)).toList
    ++ listMember "attributes" (s.attributes.map AttributeSchema.toJson)
    ++ listMember "inputs" s.inputs
    ++ listMember "outputs" s.outputs
    ++ listMember "references" s.references
    ++ s.extra)

end OperatorSchema

end PickledModel
