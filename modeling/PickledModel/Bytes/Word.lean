import PickledModel.Number.Natural

/-!
# Fixed-width words

A byte run read as a number, least significant byte first, and the run that
writes a number in a given width. The main statements are that each is the
inverse of the other on runs of that width.
-/

set_option autoImplicit false

namespace PickledModel
open scoped Natural

abbrev Bytes := List UInt8

namespace Word

/-- The number whose base-256 digits, least significant first, are the bytes. -/
def value : Bytes → Nat
  | [] => 0
  | b :: bs => b.toNat + 256 * value bs

def digits : Nat → Nat → Bytes
  | 0, _ => []
  | width + 1, n => UInt8.ofNat n :: digits width (n / 256)

/-- The integer that a byte run writes in two's complement, the last byte holding the sign. -/
def signed (bs : Bytes) : Int :=
  Int.bmod (value bs) (256 ^ bs.length)

@[simp] theorem digits_length (width n : Nat) : (digits width n).length = width := by
  induction width generalizing n with
  | zero => rfl
  | succ width ih => simp [digits, ih]

theorem value_lt (bs : Bytes) : value bs < 256 ^ bs.length := by
  induction bs with
  | nil => simp [value]
  | cons b bs ih =>
    have hb := b.toNat_lt
    simp only [value, List.length_cons, Nat.pow_succ]
    omega

theorem value_digits (width n : Nat) : value (digits width n) = n % 256 ^ width := by
  induction width generalizing n with
  | zero => simp [digits, value, Nat.mod_one]
  | succ width ih =>
    rw [digits, value, ih, Nat.pow_succ, Nat.mul_comm (256 ^ width), Nat.mod_mul]
    simp

theorem digits_value (bs : Bytes) : digits bs.length (value bs) = bs := by
  induction bs with
  | nil => rfl
  | cons b bs ih =>
    have hb := b.toNat_lt
    have hd : (b.toNat + 256 * value bs) / 256 = value bs := by omega
    rw [value, List.length_cons, digits, hd, ih]
    congr 1
    apply UInt8.toNat_inj.mp
    simp

/-- Two's complement of a width that is enough is read back as a signed number. -/
theorem signed_digits {width : Nat} {i : Int} (h : -(256 ^ width : Nat) ≤ i * 2)
    (h' : i * 2 < (256 ^ width : Nat)) : signed (digits width (i % (256 ^ width : Nat)).toNat) = i := by
  have hmod := Int.emod_nonneg i (show ((256 ^ width : Nat) : Int) ≠ 0 by omega)
  have hlt := Int.emod_lt_of_pos i (show 0 < ((256 ^ width : Nat) : Int) by omega)
  rw [signed, digits_length, value_digits, Nat.mod_eq_of_lt (by omega), Int.toNat_of_nonneg hmod,
    Int.emod_bmod]
  exact Int.bmod_eq_of_le_mul_two h h'

theorem digits_signed (bs : Bytes) :
    digits bs.length (signed bs % (256 ^ bs.length : Nat)).toNat = bs := by
  have hvalue := value_lt bs
  have hemod : signed bs % (256 ^ bs.length : Nat) = value bs := by
    rw [signed, Int.bmod_emod]
    exact Int.emod_eq_of_lt (by omega) (by omega)
  rw [hemod, Int.toNat_natCast]
  exact digits_value bs

theorem signed_range (bs : Bytes) :
    -(256 ^ bs.length : Nat) ≤ signed bs * 2 ∧ signed bs * 2 < (256 ^ bs.length : Nat) := by
  have hpos : 0 < 256 ^ bs.length := Nat.pow_pos (by decide)
  have hlow := Int.le_bmod (x := value bs) hpos
  have hhigh := Int.bmod_lt (x := value bs) hpos
  rw [signed]
  omega

end Word

end PickledModel
