import PickledModel.Number.Binary

/-!
# Shortest decimals

Every positive dyadic number of a format has an interval of reals that round
to it. Of the decimals in that interval the shortest is taken, and of those the
nearest. `NumberText` says how such a decimal is laid out as text.
-/

set_option autoImplicit false

namespace PickledModel
open scoped Natural

/-- The number `digits * 10 ^ exponent`. -/
structure Decimal where
  digits : Nat
  exponent : Int
  deriving DecidableEq, Repr

inductive Tie where
  | even
  | up
  deriving DecidableEq, Repr

namespace Decimal

/-- The same number without trailing zeros; `fuel` bounds how many are dropped. -/
def strip : Nat → Decimal → Decimal
  | 0, d => d
  | fuel + 1, d =>
    if d.digits % 10 = 0 ∧ d.digits ≠ 0 then strip fuel ⟨d.digits / 10, d.exponent + 1⟩ else d

/-- The reals that round to a number: both ends, and whether they belong to it.
All three numbers are counted in units of `2 ^ exponent`. -/
structure Interval where
  low : Nat
  value : Nat
  high : Nat
  closed : Bool
  exponent : Int

/-- The interval of a positive finite number. Below a power of two the grid is twice as fine. -/
def interval (f : BinaryFormat) (d : Dyadic) : Interval where
  low := 4 * d.coefficient - (if d.coefficient = f.fractions ∧ f.least < d.exponent then 1 else 2)
  value := 4 * d.coefficient
  high := 4 * d.coefficient + 2
  closed := d.coefficient % 2 = 0
  exponent := d.exponent - 2

/-- The largest `e` with `10 ^ e ≤ num / den`, for a positive ratio within the
range of a 64-bit number. -/
def log10Ratio (num den : Nat) : Int :=
  let reaches (e : Int) : Bool := den * 10 ^ e.toNat ≤ num * 10 ^ (-e).toNat
  let guess := Int.fdiv (BinaryFormat.log2Ratio num den * 1233) 4096
  if reaches (guess + 1) then guess + 1 else if reaches guess then guess else guess - 1

/-- The decimal with step `10 ^ k` nearest to the number among those in its
interval, if there is one. -/
def onGrid? (tie : Tie) (i : Interval) (k : Int) : Option Decimal :=
  let unit := 2 ^ i.exponent.toNat * 10 ^ (-k).toNat
  let step := 2 ^ (-i.exponent).toNat * 10 ^ k.toNat
  let v := i.value * unit
  let below := v / step
  let inside (d : Nat) : Bool :=
    if i.closed then i.low * unit ≤ d * step ∧ d * step ≤ i.high * unit
    else i.low * unit < d * step ∧ d * step < i.high * unit
  let twice := 2 * (v % step)
  let nearer :=
    if twice < step then below
    else if step < twice then below + 1
    else match tie with
      | .even => below + below % 2
      | .up => below + 1
  match inside below, inside (below + 1) with
  | true, true => some ⟨nearer, k⟩
  | true, false => some ⟨below, k⟩
  | false, true => some ⟨below + 1, k⟩
  | false, false => none

/-- The first grid with a decimal in the interval, from step `10 ^ k` down; the
last grid tried gives the number rounded down. -/
def firstGrid (tie : Tie) (i : Interval) : Nat → Int → Decimal
  | 0, k =>
    ⟨i.value * (2 ^ i.exponent.toNat * 10 ^ (-k).toNat)
      / (2 ^ (-i.exponent).toNat * 10 ^ k.toNat), k⟩
  | fuel + 1, k => (onGrid? tie i k).getD (firstGrid tie i fuel (k - 1))

/-- The shortest decimal that rounds to a number of the format; at most seventeen digits. -/
def shortest (tie : Tie) (f : BinaryFormat) (d : Dyadic) : Decimal :=
  if d.coefficient = 0 then ⟨0, 0⟩ else
    let r := d.ratio
    strip 20 (firstGrid tie (interval f d) 17 (log10Ratio r.1 r.2))

end Decimal

/-- How a decimal is laid out: the exponents of the first digit that are written
positionally, whether a whole number keeps a point and a zero, and which
shortest digits win a tie. -/
structure NumberText where
  positional : Int → Bool
  pointZero : Bool
  tie : Tie

namespace NumberText

def zeros (n : Nat) : String := String.ofList (List.replicate n '0')

def plain (t : NumberText) (digits : List Char) (whole : Int) : String :=
  if whole ≤ 0 then "0." ++ zeros (-whole).toNat ++ String.ofList digits
  else if digits.length ≤ whole.toNat then
    String.ofList digits ++ zeros (whole.toNat - digits.length) ++ (if t.pointZero then ".0" else "")
  else String.ofList (digits.take whole.toNat) ++ "." ++ String.ofList (digits.drop whole.toNat)

def scientific (digits : List Char) (exponent : Int) : String :=
  let tail := match digits with
    | [] => ""
    | [d] => String.singleton d
    | d :: ds => String.ofList (d :: '.' :: ds)
  tail ++ "e" ++ (if exponent < 0 then "-" else "+") ++ toString exponent.natAbs

def ofDecimal (t : NumberText) (d : Decimal) : String :=
  if d.digits = 0 then (if t.pointZero then "0.0" else "0") else
    let digits := Nat.toDigits 10 d.digits
    let first : Int := d.exponent + digits.length - 1
    if t.positional first then t.plain digits (first + 1) else scientific digits first

def ofDyadic (t : NumberText) (f : BinaryFormat) (negative : Bool) (d : Dyadic) : String :=
  (if negative then "-" else "") ++ t.ofDecimal (Decimal.shortest t.tie f d)

def ofMagnitude (t : NumberText) (f : BinaryFormat) (negative : Bool) : Magnitude → String
  | .finite d => t.ofDyadic f negative d
  | .infinite => if negative then "-inf" else "inf"
  | .nan => "NaN"

end NumberText

end PickledModel
