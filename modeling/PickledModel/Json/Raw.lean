import PickledModel.Json.Token

/-!
# JSON trees as written

The tree of a text with every member of its objects, its numbers as digits and
its strings as written. It is built token by token over a stack of the arrays
and objects that are open, so texts may nest to any depth.
-/

set_option autoImplicit false

namespace PickledModel.Json

inductive Raw where
  | null
  | bool (b : Bool)
  | number (n : Numeral)
  | string (s : List StringUnit)
  | array (items : List Raw)
  | object (members : List (List StringUnit × Raw))

namespace Raw

/-- An open array or object with what it holds so far, the latest first; a
member is an object whose next value is still to come. -/
inductive Frame where
  | array (items : List Raw)
  | object (members : List (List StringUnit × Raw))
  | member (members : List (List StringUnit × Raw)) (name : List StringUnit)

inductive Expect where
  | value
  | valueOrClose
  | name
  | nameOrClose
  | colon
  | commaOrClose
  deriving DecidableEq, Repr

inductive State where
  | expecting (e : Expect) (frames : List Frame)
  | complete (r : Raw)

def settle (r : Raw) : List Frame → Option State
  | [] => some (.complete r)
  | .array items :: frames => some (.expecting .commaOrClose (.array (r :: items) :: frames))
  | .member members name :: frames =>
    some (.expecting .commaOrClose (.object ((name, r) :: members) :: frames))
  | .object _ :: _ => none

def close (t : Token) : List Frame → Option State
  | .array items :: frames =>
    if t = .closeArray then settle (.array items.reverse) frames else none
  | .object members :: frames =>
    if t = .closeObject then settle (.object members.reverse) frames else none
  | _ => none

def startValue (t : Token) (frames : List Frame) : Option State :=
  match t with
  | .null => settle .null frames
  | .bool b => settle (.bool b) frames
  | .number n => settle (.number n) frames
  | .string s => settle (.string s) frames
  | .openArray => some (.expecting .valueOrClose (.array [] :: frames))
  | .openObject => some (.expecting .nameOrClose (.object [] :: frames))
  | _ => none

def startMember (t : Token) (frames : List Frame) : Option State :=
  match t, frames with
  | .string name, .object members :: frames =>
    some (.expecting .colon (.member members name :: frames))
  | _, _ => none

def continue? : List Frame → Option State
  | .array items :: frames => some (.expecting .value (.array items :: frames))
  | .object members :: frames => some (.expecting .name (.object members :: frames))
  | _ => none

def step : State → Token → Option State
  | .complete _, _ => none
  | .expecting e frames, t =>
    match e with
    | .value => startValue t frames
    | .valueOrClose => if t = .closeArray then close t frames else startValue t frames
    | .name => startMember t frames
    | .nameOrClose => if t = .closeObject then close t frames else startMember t frames
    | .colon => if t = .colon then some (.expecting .value frames) else none
    | .commaOrClose => if t = .comma then continue? frames else close t frames

def ofTokens? (ts : List Token) : Option Raw :=
  match ts.foldlM step (.expecting .value []) with
  | some (.complete r) => some r
  | _ => none

def parse? (s : String) : Option Raw := (tokens? s.toList).bind ofTokens?

end Raw

end PickledModel.Json
