import Mathlib.Algebra.Ring.Int.Defs
import Mathlib.Algebra.Ring.Nat
import PickledModel.Bytes.Word

/-! Arithmetic of 64-bit words against that of numbers. A result that is a word is
exact. One that is no word is refused; or a sum is wrapped around, and then lies
before its first term. -/

set_option autoImplicit false

namespace PickledModel

namespace Word

def mul? (a b : UInt64) : Option UInt64 :=
  if a.toNat * b.toNat < 2 ^ 64 then some (a * b) else none

def add? (a b : UInt64) : Option UInt64 :=
  if a.toNat + b.toNat < 2 ^ 64 then some (a + b) else none

/-- What becomes of a sum that is no word: there is none, or the upper part of it is lost. -/
inductive Overflow where
  | refused
  | wrapped
  deriving DecidableEq, Repr

def sum? : Overflow → UInt64 → UInt64 → Option UInt64
  | .refused, a, b => add? a b
  | .wrapped, a, b => some (a + b)

/-- A product is exact, or it is refused because it is no word. -/
theorem mul?_cases (a b : UInt64) :
    (∃ w, mul? a b = some w ∧ w.toNat = a.toNat * b.toNat) ∨
      mul? a b = none ∧ 2 ^ 64 ≤ a.toNat * b.toNat := by
  by_cases h : a.toNat * b.toNat < 2 ^ 64
  · refine .inl ⟨a * b, if_pos h, ?_⟩
    rw [UInt64.toNat_mul, Nat.mod_eq_of_lt h]
  · exact .inr ⟨if_neg h, Nat.le_of_not_lt h⟩

theorem add?_cases (a b : UInt64) :
    (∃ w, add? a b = some w ∧ w.toNat = a.toNat + b.toNat) ∨
      add? a b = none ∧ 2 ^ 64 ≤ a.toNat + b.toNat := by
  by_cases h : a.toNat + b.toNat < 2 ^ 64
  · refine .inl ⟨a + b, if_pos h, ?_⟩
    rw [UInt64.toNat_add, Nat.mod_eq_of_lt h]
  · exact .inr ⟨if_neg h, Nat.le_of_not_lt h⟩

theorem wrapped_lt {a b : UInt64} (h : 2 ^ 64 ≤ a.toNat + b.toNat) : a + b < a := by
  have ha := a.toNat_lt
  have hb := b.toNat_lt
  rw [UInt64.lt_iff_toNat_lt, UInt64.toNat_add]
  omega

/-- A sum is exact, or it is no word, and what there is of it lies before its first term. -/
theorem sum?_cases (o : Overflow) (a b : UInt64) :
    (∃ w, sum? o a b = some w ∧ w.toNat = a.toNat + b.toNat) ∨
      2 ^ 64 ≤ a.toNat + b.toNat ∧ ∀ w, sum? o a b = some w → w < a := by
  by_cases h : a.toNat + b.toNat < 2 ^ 64
  · left
    refine ⟨a + b, ?_, ?_⟩
    · cases o with
      | refused => exact if_pos h
      | wrapped => rfl
    · rw [UInt64.toNat_add, Nat.mod_eq_of_lt h]
  · right
    have hlarge : 2 ^ 64 ≤ a.toNat + b.toNat := Nat.le_of_not_lt h
    refine ⟨hlarge, ?_⟩
    intro w hw
    cases o with
    | refused =>
      rw [sum?, add?, if_neg h] at hw
      cases hw
    | wrapped =>
      obtain rfl := Option.some.inj hw
      exact wrapped_lt hlarge

end Word

end PickledModel
