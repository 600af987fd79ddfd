import PickledModel.Number.Decimal
import PickledModel.Text.Numeral

/-!
# Floating-point literals

Decimal text read as the nearest 64-bit number: digits with an optional point
and exponent, or the name of an infinity or a NaN.
-/

set_option autoImplicit false

namespace PickledModel.Binary64
open scoped Natural

/-- The nearest number to a decimal. Magnitudes far outside the range are
settled without forming their powers of ten. -/
def ofDecimal (negative : Bool) (d : Decimal) : Binary64 :=
  if d.digits = 0 then ofParts negative 0 else
    let top : Int := (Nat.toDigits 10 d.digits).length + d.exponent
    if 400 < top then ofParts negative BinaryFormat.binary64.infinityBits
    else if top < -400 then ofParts negative 0
    else ofRatio negative (d.digits * 10 ^ d.exponent.toNat) (10 ^ (-d.exponent).toNat)

/-- The digits of an exponent. A digit counts only while the number before it is below
`2 ^ 16`, so a larger exponent is read as the number of its first five or six digits. -/
def exponentDigits? (ds : List Char) : Option Nat :=
  if Text.isDigits ds then some (Text.cappedValue (2 ^ (16 : Nat)) ds) else none

def exponentPart? : List Char → Option Int
  | [] => some 0
  | c :: cs =>
    if c = 'e' ∨ c = 'E' then
      match cs with
      | '-' :: ds => (exponentDigits? ds).map fun n => -(n : Int)
      | '+' :: ds => (exponentDigits? ds).map Int.ofNat
      | ds => (exponentDigits? ds).map Int.ofNat
    else none

/-- The number that digits write, of which only the first 800 from the first that
is not zero are kept. A point half way between two floats has fewer, so it makes
no difference to rounding what stands behind them, only whether it is nothing. -/
def significand (ds : List Char) : Decimal :=
  let ds := ds.dropWhile (· == '0')
  let tail := ds.drop 800
  if tail.isEmpty then ⟨Text.decimalValue ds, 0⟩
  else
    let more := if tail.all (· == '0') then 0 else 1
    ⟨10 * Text.decimalValue (ds.take 800) + more, tail.length - 1⟩

def decimal? (cs : List Char) : Option Decimal :=
  let whole := cs.takeWhile Char.isDigit
  let rest := cs.dropWhile Char.isDigit
  let (part, rest) := match rest with
    | '.' :: rest => (rest.takeWhile Char.isDigit, rest.dropWhile Char.isDigit)
    | _ => ([], rest)
  if whole.isEmpty && part.isEmpty then none
  else (exponentPart? rest).map fun e =>
    let s := significand (whole ++ part)
    ⟨s.digits, s.exponent + e - part.length⟩

def unsignedLiteral? (negative : Bool) (cs : List Char) : Option Binary64 :=
  let name := String.ofList (cs.map Char.toLower)
  if name = "inf" ∨ name = "infinity" then
    some (ofParts negative BinaryFormat.binary64.infinityBits)
  else if name = "nan" then some (ofParts negative nan.bits.toNat)
  else (decimal? cs).map (ofDecimal negative)

def literal? : List Char → Option Binary64
  | '-' :: cs => unsignedLiteral? true cs
  | '+' :: cs => unsignedLiteral? false cs
  | cs => unsignedLiteral? false cs

end PickledModel.Binary64
