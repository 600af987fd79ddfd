import PickledModel.Json.Basic
import PickledModel.Number.Decimal

/-!
# JSON text

The compact text of a document, and the text with one item per line.
-/

set_option autoImplicit false

namespace PickledModel

/-- JSON floats are positional from `1e-5` to below `1e16`, a whole number keeps
its point, and a tie goes to the even digit. -/
def JsonNumber.layout : NumberText := ⟨fun e => -5 ≤ e && e ≤ 15, true, .even⟩

def JsonNumber.text : JsonNumber → String
  | .natural n => toString n.toNat
  | .negative i => toString i.toInt
  | .float x => JsonNumber.layout.ofMagnitude .binary64 x.negative x.magnitude

namespace Json

def escapeChar (c : Char) : String :=
  if c = '"' then "\\\""
  else if c = '\\' then "\\\\"
  else if c = '\x08' then "\\b"
  else if c = '\x0c' then "\\f"
  else if c = '\n' then "\\n"
  else if c = '\r' then "\\r"
  else if c = '\t' then "\\t"
  else if c.toNat < 0x20 then
    "\\u00" ++ String.ofList [Nat.digitChar (c.toNat / 16), Nat.digitChar (c.toNat % 16)]
  else String.singleton c

def quote (s : String) : String :=
  (s.foldl (fun out c => out ++ escapeChar c) "\"").push '"'

theorem sizeOf_lt_of_mem {members : List (String × Json)} {name : String} {v : Json}
    (h : (name, v) ∈ members) : sizeOf v < sizeOf members := by
  have := List.sizeOf_lt_of_mem h
  simp only [Prod.mk.sizeOf_spec] at this
  omega

def compact : Json → String
  | .null => "null"
  | .bool b => if b then "true" else "false"
  | .number n => n.text
  | .string s => quote s
  | .array items => "[" ++ ",".intercalate (items.map compact) ++ "]"
  | .object members =>
    "\x7b" ++ ",".intercalate (members.attach.map fun ⟨(name, v), _⟩ =>
      have : sizeOf v < sizeOf members := sizeOf_lt_of_mem ‹_›
      quote name ++ ":" ++ compact v) ++ "\x7d"

theorem compact_object (members : List (String × Json)) :
    (Json.object members).compact =
      "\x7b" ++ ",".intercalate (members.map fun (name, v) => quote name ++ ":" ++ v.compact)
        ++ "\x7d" := by
  rw [compact]
  conv => rhs; rw [← List.attach_map_subtype_val members, List.map_map]
  rfl

/-- Lines between brackets, each on its own and set in by `margin`; none leave the brackets joined. -/
def block (opening closing outer margin : String) : List String → String
  | [] => opening ++ closing
  | lines => opening ++ "\n" ++ ",\n".intercalate (lines.map (margin ++ ·)) ++ "\n" ++ outer ++ closing

/-- The text with one item or member per line, `indent` further in at each level. -/
def pretty (indent : String) (margin : String) : Json → String
  | .array items => block "[" "]" margin (margin ++ indent) (items.map (pretty indent (margin ++ indent)))
  | .object members =>
    block "\x7b" "\x7d" margin (margin ++ indent) (members.attach.map fun ⟨(name, v), _⟩ =>
      have : sizeOf v < sizeOf members := sizeOf_lt_of_mem ‹_›
      quote name ++ ": " ++ pretty indent (margin ++ indent) v)
  | other => compact other

end Json

end PickledModel
