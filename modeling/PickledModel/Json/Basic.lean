import PickledModel.Members
import PickledModel.Number.Binary

/-!
# JSON documents

A document as a tree. A number is a 64-bit word without sign, a negative 64-bit
integer, or a finite 64-bit float; the members of an object stand in order of
first mention, each name once.
-/

set_option autoImplicit false

namespace PickledModel

inductive JsonNumber where
  | natural (n : UInt64)
  | negative (i : Int64)
  | float (x : Binary64)
  deriving DecidableEq, Repr

inductive Json where
  | null
  | bool (b : Bool)
  | number (n : JsonNumber)
  | string (s : String)
  | array (items : List Json)
  | object (members : List (String × Json))

namespace Json

def ofInt64 (i : Int64) : Json :=
  .number (if i < 0 then .negative i else .natural i.toUInt64)

def ofUInt64 (n : UInt64) : Json := .number (.natural n)

def ofFloat (x : Binary64) : Json := if x.isFinite then .number (.float x) else .null

/-- An object in which a repeated name keeps its first place and takes its last value. -/
def ofMembers (ms : List (String × Json)) : Json := .object (Members.ofList ms)

def isNull : Json → Bool
  | .null => true
  | _ => false

end Json

end PickledModel
