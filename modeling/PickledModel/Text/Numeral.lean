import PickledModel.Number.Natural

/-!
# Numerals

Decimal and hexadecimal digits read as numbers below a limit. A numeral may open
with a plus sign; only one of a signed kind may open with a minus sign. The main
statement is that every integer within the limit reads back from its decimal text.
-/

set_option autoImplicit false

namespace PickledModel.Text

def digitValue (c : Char) : Nat := c.toNat - '0'.toNat

def decimalValue (ds : List Char) : Nat :=
  ds.foldl (fun n d => 10 * n + digitValue d) 0

/-- The number that decimal digits write, continuing from `n`, if it is below
`limit`. Digits are taken no further than that, however many there are. -/
def valueBelow? (limit : Nat) : Nat → List Char → Option Nat
  | n, [] => if n < limit then some n else none
  | n, d :: ds => if n < limit then valueBelow? limit (10 * n + digitValue d) ds else none

/-- The number that decimal digits write when digits count only as long as the
number before them is below `cap`. -/
def cappedValue (cap : Nat) (ds : List Char) : Nat :=
  ds.foldl (fun n d => if n < cap then 10 * n + digitValue d else n) 0

def isDigits (cs : List Char) : Bool := !cs.isEmpty && cs.all Char.isDigit

def digits? (limit : Nat) (cs : List Char) : Option Nat :=
  if isDigits cs then valueBelow? limit 0 cs else none

def natural? (limit : Nat) : List Char → Option Nat
  | '+' :: cs => digits? limit cs
  | cs => digits? limit cs

def integer? (limit : Nat) : List Char → Option Int
  | '-' :: cs => (digits? limit cs).map fun n => -(n : Int)
  | cs => (natural? limit cs).map Int.ofNat

def hexDigit? (b : UInt8) : Option Nat :=
  let n := b.toNat
  if 0x30 ≤ n ∧ n ≤ 0x39 then some (n - 0x30)
  else if 0x61 ≤ n ∧ n ≤ 0x66 then some (n - 0x61 + 10)
  else if 0x41 ≤ n ∧ n ≤ 0x46 then some (n - 0x41 + 10)
  else none

def hexDigits? : Nat → List UInt8 → Option Nat
  | n, [] => some n
  | n, b :: bs => do hexDigits? (16 * n + (← hexDigit? b)) bs

/-- One or more hexadecimal digits after at most one plus sign. -/
def hexadecimal? : List UInt8 → Option Nat
  | [] => none
  | [b] => hexDigits? 0 [b]
  | b :: bs => hexDigits? 0 (if b = 0x2b then bs else b :: bs)

theorem digitValue_digitChar {n : Nat} (h : n < 10) : digitValue (Nat.digitChar n) = n := by
  rw [digitValue, Nat.toNat_digitChar_of_lt_ten h]
  exact Nat.add_sub_cancel_left 48 n

/-- The decimal digits of a number write that number. -/
theorem decimalValue_toDigits (n : Nat) : decimalValue (Nat.toDigits 10 n) = n := by
  induction n using Nat.strongRecOn with
  | _ n ih =>
    by_cases h : n < 10
    · rw [Nat.toDigits_of_lt_base h]
      simp [decimalValue, digitValue_digitChar h]
    · have hd : n % 10 < 10 := Nat.mod_lt n (by decide)
      have hs := Nat.toDigits_append_toDigits (b := 10) (n := n / 10) (d := n % 10) (by decide)
        (by omega) hd
      have hn : 10 * (n / 10) + n % 10 = n := by omega
      rw [hn, Nat.toDigits_of_lt_base hd] at hs
      rw [← hs, decimalValue, List.foldl_append]
      change 10 * decimalValue (Nat.toDigits 10 (n / 10)) + digitValue (Nat.digitChar (n % 10)) = n
      rw [ih (n / 10) (by omega), digitValue_digitChar hd, hn]

theorem isDigit_of_mem_toDigits {n : Nat} {c : Char} (h : c ∈ Nat.toDigits 10 n) :
    c.isDigit = true :=
  Nat.isDigit_of_mem_toDigits (by decide) (Nat.le_refl 10) h

theorem le_foldl_digits (n : Nat) (ds : List Char) :
    n ≤ ds.foldl (fun n d => 10 * n + digitValue d) n := by
  induction ds generalizing n with
  | nil => exact Nat.le_refl n
  | cons d ds ih =>
    have := ih (10 * n + digitValue d)
    rw [List.foldl_cons]
    omega

theorem valueBelow?_eq (limit n : Nat) (ds : List Char) :
    valueBelow? limit n ds =
      let m := ds.foldl (fun n d => 10 * n + digitValue d) n
      if m < limit then some m else none := by
  induction ds generalizing n with
  | nil => rfl
  | cons d ds ih =>
    rw [valueBelow?, ih]
    by_cases h : n < limit
    · rw [if_pos h]
      rfl
    · have := le_foldl_digits n (d :: ds)
      rw [if_neg h]
      exact (if_neg (by omega)).symm

theorem digits?_toDigits {limit n : Nat} (h : n < limit) :
    digits? limit (Nat.toDigits 10 n) = some n := by
  have all : (Nat.toDigits 10 n).all Char.isDigit = true :=
    List.all_eq_true.mpr fun _ => isDigit_of_mem_toDigits
  have full : (Nat.toDigits 10 n).isEmpty = false :=
    List.isEmpty_eq_false_iff.mpr Nat.toDigits_ne_nil
  have value : (Nat.toDigits 10 n).foldl (fun n d => 10 * n + digitValue d) 0 = n :=
    decimalValue_toDigits n
  rw [digits?, isDigits, all, full, valueBelow?_eq, value]
  exact if_pos h

theorem natural?_toDigits {limit n : Nat} (h : n < limit) :
    natural? limit (Nat.toDigits 10 n) = some n := by
  unfold natural?
  split
  · next cs hc =>
    have : '+' ∈ Nat.toDigits 10 n := hc ▸ List.mem_cons_self
    exact absurd (isDigit_of_mem_toDigits this) (by decide)
  · exact digits?_toDigits h

/-- An integer reads back from its decimal text. -/
theorem integer?_toString {limit : Nat} {i : Int} (h : i.natAbs < limit) :
    integer? limit (toString i).toList = some i := by
  cases i with
  | ofNat n =>
    have ht : (toString (Int.ofNat n)).toList = Nat.toDigits 10 n := by
      simp [Int.repr_eq_if]
    rw [ht]
    unfold integer?
    split
    · next cs hc =>
      have : '-' ∈ Nat.toDigits 10 n := hc ▸ List.mem_cons_self
      exact absurd (isDigit_of_mem_toDigits this) (by decide)
    · rw [natural?_toDigits (show n < limit from h)]
      rfl
  | negSucc n =>
    have ht : (toString (Int.negSucc n)).toList = '-' :: Nat.toDigits 10 (n + 1) := by
      simp [Int.repr_eq_if]
    rw [ht]
    have hn : digits? limit (Nat.toDigits 10 (n + 1)) = some (n + 1) := digits?_toDigits h
    rw [integer?, hn]
    rfl

end PickledModel.Text
