import PickledModel.Number.Natural

/-!
# Binary interchange numbers

A floating-point number is kept as the bits that store it. A format gives the
precision and the exponent width; a finite word denotes a dyadic number
`coefficient * 2 ^ exponent`, and a ratio of naturals is rounded to the
nearest word of a format, a tie to the even one.
-/

set_option autoImplicit false

namespace PickledModel
open scoped Natural

/-- An interchange format: the bits of the significand, the hidden one
included, and the bits of the exponent field. -/
structure BinaryFormat where
  precision : Nat
  exponentWidth : Nat
  deriving DecidableEq, Repr

structure Dyadic where
  coefficient : Nat
  exponent : Int
  deriving DecidableEq, Repr

inductive Magnitude where
  | finite (d : Dyadic)
  | infinite
  | nan
  deriving DecidableEq, Repr

namespace Dyadic

def ratio (d : Dyadic) : Nat × Nat :=
  (d.coefficient * 2 ^ d.exponent.toNat, 2 ^ (-d.exponent).toNat)

theorem ratio_den_pos (d : Dyadic) : 0 < d.ratio.2 := Nat.two_pow_pos _

end Dyadic

/-- The quotient rounded to the nearest natural number, a tie to the even one. -/
def divEven (num den : Nat) : Nat :=
  let q := num / den
  let twice := 2 * (num % den)
  if den < twice ∨ (twice = den ∧ q % 2 = 1) then q + 1 else q

namespace BinaryFormat

def binary32 : BinaryFormat := ⟨24, 8⟩
def binary64 : BinaryFormat := ⟨53, 11⟩

def fractions (f : BinaryFormat) : Nat := 2 ^ (f.precision - 1)

def topExponent (f : BinaryFormat) : Nat := 2 ^ f.exponentWidth - 1

def infinityBits (f : BinaryFormat) : Nat := f.topExponent * f.fractions

/-- The exponent of the last bit of a subnormal number. -/
def least (f : BinaryFormat) : Int := 3 - 2 ^ (f.exponentWidth - 1) - f.precision

def fraction (f : BinaryFormat) (bits : Nat) : Nat := bits % f.fractions

def exponentField (f : BinaryFormat) (bits : Nat) : Nat :=
  bits / f.fractions % 2 ^ f.exponentWidth

def magnitude (f : BinaryFormat) (bits : Nat) : Magnitude :=
  let e := f.exponentField bits
  let m := f.fraction bits
  if e = f.topExponent then if m = 0 then .infinite else .nan
  else if e = 0 then .finite ⟨m, f.least⟩
  else .finite ⟨f.fractions + m, f.least + (e - 1 : Nat)⟩

/-- The largest `e` with `2 ^ e ≤ num / den`, for a positive ratio. -/
def log2Ratio (num den : Nat) : Int :=
  let e : Int := num.log2 - den.log2
  if den * 2 ^ e.toNat ≤ num * 2 ^ (-e).toNat then e else e - 1

/-- The word nearest to `num / den`, without sign. The words of a format lie in
the order of their values, so a carry out of the significand needs no care. -/
def round (f : BinaryFormat) (num den : Nat) : Nat :=
  if num = 0 then 0 else
    let q := max f.least (log2Ratio num den - (f.precision - 1 : Nat))
    let m := divEven (num * 2 ^ (-q).toNat) (den * 2 ^ q.toNat)
    min ((q - f.least).toNat * f.fractions + m) f.infinityBits

end BinaryFormat

structure Binary64 where
  bits : UInt64
  deriving DecidableEq, Hashable, Repr, Inhabited

structure Binary32 where
  bits : UInt32
  deriving DecidableEq, Hashable, Repr, Inhabited

namespace Binary64

def ofParts (negative : Bool) (magnitude : Nat) : Binary64 :=
  ⟨UInt64.ofNat (if negative then 2 ^ (63 : Nat) + magnitude else magnitude)⟩

def negative (x : Binary64) : Bool := 2 ^ (63 : Nat) ≤ x.bits.toNat

def magnitude (x : Binary64) : Magnitude := BinaryFormat.binary64.magnitude x.bits.toNat

def zero : Binary64 := ⟨0⟩
def infinity : Binary64 := ⟨0x7ff0000000000000⟩
def nan : Binary64 := ⟨0x7ff8000000000000⟩

def neg (x : Binary64) : Binary64 := ⟨x.bits ^^^ 0x8000000000000000⟩

def isNaN (x : Binary64) : Bool := x.magnitude == .nan

def isZero (x : Binary64) : Bool := x.bits <<< 1 == 0

def isFinite (x : Binary64) : Bool := BinaryFormat.binary64.exponentField x.bits.toNat != 2047

def ofRatio (negative : Bool) (num den : Nat) : Binary64 :=
  ofParts negative (BinaryFormat.binary64.round num den)

def ofNat (n : Nat) : Binary64 := ofRatio false n 1

def ofInt (i : Int) : Binary64 := ofRatio (i < 0) i.natAbs 1

/-- Numeric equality: a NaN equals nothing, and the two zeros are equal. -/
def equal (x y : Binary64) : Bool :=
  !x.isNaN && !y.isNaN && (x.bits == y.bits || (x.isZero && y.isZero))

theorem equal_comm (x y : Binary64) : x.equal y = y.equal x := by
  rw [equal, equal, BEq.comm (a := x.bits), Bool.and_comm x.isZero, Bool.and_comm (!x.isNaN)]

end Binary64

namespace Binary32

def magnitude (x : Binary32) : Magnitude := BinaryFormat.binary32.magnitude x.bits.toNat

def negative (x : Binary32) : Bool := 2 ^ (31 : Nat) ≤ x.bits.toNat

/-- The same number in 64 bits; the payload of a NaN moves to the top of the wider field. -/
def widen (x : Binary32) : Binary64 :=
  match x.magnitude with
  | .finite d => .ofRatio x.negative d.ratio.1 d.ratio.2
  | .infinite => .ofParts x.negative BinaryFormat.binary64.infinityBits
  | .nan => .ofParts x.negative
      (BinaryFormat.binary64.infinityBits + BinaryFormat.binary32.fraction x.bits.toNat * 2 ^ (29 : Nat))

end Binary32

end PickledModel
