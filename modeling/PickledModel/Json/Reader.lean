import PickledModel.Json.Basic
import PickledModel.Json.Raw

/-!
# Reading JSON

The document that a tree as written stands for. Strings must be Unicode text,
nesting is bounded, and a number must fit: an integer of 64 bits, or else a
finite float, found by scaling a 64-bit significand.
-/

set_option autoImplicit false

namespace PickledModel.Binary64
open scoped Natural

def powerOfTen (k : Nat) : Binary64 := ofNat (10 ^ k)

/-- A non-negative finite float times or divided by `10 ^ |e|`, rounded once for
the power and once for the result. -/
def scale (x : Binary64) (e : Int) : Binary64 :=
  match x.magnitude, (powerOfTen e.natAbs).magnitude with
  | .finite a, .finite b =>
    if 0 ≤ e then ofRatio false (a.ratio.1 * b.ratio.1) (a.ratio.2 * b.ratio.2)
    else ofRatio false (a.ratio.1 * b.ratio.2) (a.ratio.2 * b.ratio.1)
  | _, _ => nan

/-- A non-negative finite float times `10 ^ e`, if that is finite. An exponent
below -308 is taken in steps of 308; `fuel` bounds their number. -/
def scaleBy? : Nat → Binary64 → Int → Option Binary64
  | 0, _, _ => none
  | fuel + 1, x, e =>
    if e.natAbs ≤ 308 then
      let y := x.scale e
      if y.isFinite then some y else none
    else if x.isZero then some x
    else if 0 ≤ e then none
    else scaleBy? fuel (x.scale (-308)) (e + 308)

end PickledModel.Binary64

namespace PickledModel.Json
open scoped Natural

def absorb (significand : Nat) : List Char → Nat × List Char
  | [] => (significand, [])
  | d :: ds =>
    let next := 10 * significand + Text.digitValue d
    if next < 2 ^ (64 : Nat) then absorb next ds else (significand, d :: ds)

def scaled? (negative : Bool) (significand : Nat) (e : Int) : Option JsonNumber :=
  (Binary64.scaleBy? ((-e).toNat / 308 + 1) (.ofNat significand) e).map fun x =>
    .float (if negative then x.neg else x)

def integer (negative : Bool) (n : Nat) : JsonNumber :=
  if !negative then .natural (UInt64.ofNat n)
  else if 0 < n ∧ n ≤ 2 ^ (63 : Nat) then .negative (Int64.ofInt (-n))
  else .float (.ofRatio true n 1)

def Numeral.number? (n : Numeral) : Option JsonNumber :=
  let (whole, skipped) := absorb 0 n.whole
  if n.fraction = [] ∧ n.exponent = none ∧ skipped = [] then some (integer n.negative whole)
  else
    let (significand, dropped) := absorb whole n.fraction
    let taken := n.fraction.length - dropped.length
    scaled? n.negative significand ((skipped.length : Int) - taken + n.exponent.getD 0)

/-- The characters of a string; two code units of a surrogate pair make one. -/
def characters? (done : List Char) : List StringUnit → Option (List Char)
  | [] => some done.reverse
  | .char c :: us => characters? (c :: done) us
  | .code n :: us =>
    if 0xd800 ≤ n ∧ n < 0xdc00 then
      match us with
      | .code m :: us =>
        if 0xdc00 ≤ m ∧ m < 0xe000 then
          characters? (Char.ofNat (0x10000 + 0x400 * (n - 0xd800) + (m - 0xdc00)) :: done) us
        else none
      | _ => none
    else if 0xdc00 ≤ n ∧ n < 0xe000 then none
    else characters? (Char.ofNat n :: done) us

def text? (s : List StringUnit) : Option String := (characters? [] s).map String.ofList

def maxLevels : Nat := 127

def ofRaw? : Nat → Raw → Option Json
  | _, .null => some .null
  | _, .bool b => some (.bool b)
  | _, .number n => n.number?.map .number
  | _, .string s => (text? s).map .string
  | 0, .array _ => none
  | 0, .object _ => none
  | levels + 1, .array items => (items.mapM (ofRaw? levels)).map .array
  | levels + 1, .object members =>
    (members.mapM fun (name, r) => do return (← text? name, ← ofRaw? levels r)).map .ofMembers

def parse? (s : String) : Option Json := (Raw.parse? s).bind (ofRaw? maxLevels)

end PickledModel.Json
