import Mathlib.Algebra.Ring.Int.Defs
import Mathlib.Algebra.Ring.Nat
import PickledModel.Json.Equivalence
import PickledModel.Proofs.Number.Exact

/-! Numbers of documents. Two numbers are equivalent if they denote the same number, and
also if one is an integer that no float denotes and the other is the float it is rounded to.
Between integers, and between floats, nothing is rounded. -/

set_option autoImplicit false

namespace PickledModel.JsonNumber

def integer? : JsonNumber → Option Int
  | .natural n => some n.toNat
  | .negative i => some i.toInt
  | .float _ => none

def value : JsonNumber → Rat
  | .natural n => (n.toNat : Int)
  | .negative i => i.toInt
  | .float x => x.value

def Proper : JsonNumber → Prop
  | .natural _ => True
  | .negative i => i.toInt < 0
  | .float x => x.isFinite = true

def minusZero : JsonNumber := .float .minusZero

def Same (m n : JsonNumber) : Prop := m.value = n.value ∧ (m = minusZero ↔ n = minusZero)

/-- An integer that no float denotes, and the float that it is rounded to. -/
def RoundsTo (m n : JsonNumber) : Prop :=
  ∃ i, m.integer? = some i ∧ n = .float (.ofInt i) ∧ ∀ x : Binary64, x.isFinite = true → x.value ≠ i

def Rounded (m n : JsonNumber) : Prop := RoundsTo m n ∨ RoundsTo n m

def DistinctIntegers (m n : JsonNumber) : Prop :=
  ∃ i j, m.integer? = some i ∧ n.integer? = some j ∧ i ≠ j

variable {k m n : JsonNumber} {i j : Int} {w : Int64}

theorem Same.refl (m : JsonNumber) : Same m m := ⟨rfl, Iff.rfl⟩

theorem Same.symm (h : Same m n) : Same n m := ⟨h.1.symm, h.2.symm⟩

/-- A number is an integer or a float. -/
theorem integer_or_float (m : JsonNumber) : (∃ i, m.integer? = some i) ∨ ∃ x, m = .float x := by
  cases m with
  | natural n => exact .inl ⟨_, rfl⟩
  | negative i => exact .inl ⟨_, rfl⟩
  | float x => exact .inr ⟨x, rfl⟩

theorem value_of_integer (h : m.integer? = some i) : m.value = i := by
  cases m with
  | natural n => rw [value, Option.some.inj h]
  | negative j => rw [value, Option.some.inj h]
  | float x => cases h

theorem toFloat_of_integer (h : m.integer? = some i) : m.toFloat = .ofInt i := by
  cases m with
  | natural n =>
    obtain rfl := Option.some.inj h
    have hsign : decide ((n.toNat : Int) < 0) = false := decide_eq_false (by omega)
    rw [toFloat, Binary64.ofNat, Binary64.ofInt, hsign, Int.natAbs_natCast]
  | negative j => rw [toFloat, Option.some.inj h]
  | float x => cases h

theorem equivalent_comm (m n : JsonNumber) : m.equivalent n = n.equivalent m := by
  unfold equivalent
  cases m.int64? <;> cases n.int64? <;> cases m.uint64? <;> cases n.uint64? <;>
    exact BEq.comm

theorem toInt_toInt64 {a : UInt64} (h : a.toNat < 2 ^ 63) : a.toInt64.toInt = a.toNat := by
  rw [← Int64.toInt_toBitVec, UInt64.toBitVec_toInt64, BitVec.toInt_eq_toNat_of_lt]
  · rfl
  · change 2 * a.toNat < 2 ^ 64
    omega

theorem natural_equivalent_natural (a b : UInt64) :
    (natural a).equivalent (natural b) = true ↔ a.toNat = b.toNat := by
  have hwords : a = b ↔ a.toNat = b.toNat := UInt64.toNat_inj.symm
  by_cases ha : a.toNat < 2 ^ 63
  · by_cases hb : b.toNat < 2 ^ 63
    · have hints : a.toInt64 = b.toInt64 ↔ a.toNat = b.toNat := by
        rw [← Int64.toInt_inj, toInt_toInt64 ha, toInt_toInt64 hb, Int.natCast_inj]
      simp only [equivalent, int64?, if_pos ha, if_pos hb, beq_iff_eq, hints]
    · simp only [equivalent, int64?, uint64?, if_pos ha, if_neg hb, beq_iff_eq, hwords]
  · simp only [equivalent, int64?, uint64?, if_neg ha, beq_iff_eq, hwords]

/-- A word too large for a sign is compared as a float with an integer below zero. -/
theorem natural_equivalent_negative (a : UInt64) {i : Int64} (hi : i.toInt < 0) :
    (natural a).equivalent (negative i) = false := by
  rw [← Bool.not_eq_true]
  by_cases ha : a.toNat < 2 ^ 63
  · simp only [equivalent, int64?, if_pos ha, beq_iff_eq]
    rintro rfl
    rw [toInt_toInt64 ha] at hi
    omega
  · simp only [equivalent, int64?, uint64?, if_neg ha, beq_iff_eq]
    intro h
    have hsign := congrArg Binary64.negative h
    rw [toFloat_of_integer (m := natural a) rfl, toFloat_of_integer (m := negative i) rfl,
      Binary64.negative_ofInt, Binary64.negative_ofInt, decide_eq_true hi] at hsign
    exact absurd (of_decide_eq_true hsign) (by omega)

/-- Integers are compared as integers. -/
theorem equivalent_integers (hm : m.Proper) (hn : n.Proper) (hi : m.integer? = some i)
    (hj : n.integer? = some j) : m.equivalent n = true ↔ i = j := by
  cases m with
  | float x => cases hi
  | natural a =>
    cases n with
    | float x => cases hj
    | natural b =>
      rw [natural_equivalent_natural, ← Option.some.inj hi, ← Option.some.inj hj, Int.natCast_inj]
    | negative b =>
      have hb : b.toInt < 0 := hn
      rw [natural_equivalent_negative a hb, ← Option.some.inj hi, ← Option.some.inj hj]
      exact iff_of_false Bool.false_ne_true (by omega)
  | negative a =>
    have ha : a.toInt < 0 := hm
    cases n with
    | float x => cases hj
    | natural b =>
      rw [equivalent_comm, natural_equivalent_negative b ha, ← Option.some.inj hi,
        ← Option.some.inj hj]
      exact iff_of_false Bool.false_ne_true (by omega)
    | negative b =>
      rw [← Option.some.inj hi, ← Option.some.inj hj, Int64.toInt_inj]
      exact beq_iff_eq

/-- A float is compared as a float with any number. -/
theorem equivalent_float (m : JsonNumber) (x : Binary64) :
    m.equivalent (float x) = true ↔ m.toFloat = x := by
  have hcompare : m.equivalent (float x) = (m.toFloat == x) := by
    unfold equivalent
    cases m.int64? <;> cases m.uint64? <;> rfl
  rw [hcompare, beq_iff_eq]

theorem ne_minusZero_of_integer (h : m.integer? = some i) : m ≠ minusZero := by
  rintro rfl
  cases h

theorem same_integers (hi : m.integer? = some i) (hj : n.integer? = some j) :
    Same m n ↔ i = j := by
  have hzeros := iff_of_false (ne_minusZero_of_integer hi) (ne_minusZero_of_integer hj)
  rw [Same, value_of_integer hi, value_of_integer hj, Rat.intCast_inj]
  exact and_iff_left hzeros

theorem same_floats {x y : Binary64} (hx : x.isFinite = true) (hy : y.isFinite = true) :
    Same (float x) (float y) ↔ x = y := by
  constructor
  · rintro ⟨hvalue, hzero⟩
    apply Binary64.eq_of_value_eq hx hy hvalue
    simpa [minusZero] using hzero
  · rintro rfl
    exact .refl _

/-- An integer denotes the same as the float that it is rounded to, or no float denotes it. -/
theorem same_integer_float (hi : m.integer? = some i) {x : Binary64} (hx : x.isFinite = true) :
    Same m (float x) ↔ x = .ofInt i ∧ ∃ y : Binary64, y.isFinite = true ∧ y.value = i := by
  have hm := ne_minusZero_of_integer hi
  constructor
  · rintro ⟨hvalue, hzero⟩
    rw [value_of_integer hi] at hvalue
    have hx0 : x ≠ .minusZero := by
      rintro rfl
      exact hm (hzero.mpr rfl)
    exact ⟨(Binary64.ofInt_of_value hx hvalue.symm hx0).symm, x, hx, hvalue.symm⟩
  · rintro ⟨rfl, y, hy, hvalue⟩
    obtain ⟨hexact, hx0⟩ := Binary64.value_ofInt hy hvalue
    refine ⟨(value_of_integer hi).trans hexact.symm, iff_of_false hm ?_⟩
    rw [minusZero, float.injEq]
    exact hx0

theorem equivalent_integer_float (hi : m.integer? = some i) {x : Binary64}
    (hx : x.isFinite = true) :
    m.equivalent (float x) = true ↔ Same m (float x) ∨ RoundsTo m (float x) := by
  rw [equivalent_float, toFloat_of_integer hi, same_integer_float hi hx]
  constructor
  · intro h
    by_cases hexact : ∃ y : Binary64, y.isFinite = true ∧ y.value = i
    · exact .inl ⟨h.symm, hexact⟩
    · exact .inr ⟨i, hi, by rw [h], fun y hy hvalue => hexact ⟨y, hy, hvalue⟩⟩
  · rintro (⟨h, -⟩ | ⟨j, hj, h, -⟩)
    · exact h.symm
    · rw [hi, Option.some_inj] at hj
      rw [hj, ← float.inj h]

theorem not_roundsTo_of_integer (h : n.integer? = some i) : ¬RoundsTo m n := by
  rintro ⟨j, -, rfl, -⟩
  cases h

theorem not_roundsTo_of_float (x : Binary64) : ¬RoundsTo (float x) n := by
  rintro ⟨j, h, -⟩
  cases h

/-- Two numbers are equivalent if they denote the same, or if one of them is rounded. -/
theorem equivalent_iff (hm : m.Proper) (hn : n.Proper) :
    m.equivalent n = true ↔ Same m n ∨ Rounded m n := by
  rcases integer_or_float m with ⟨i, hi⟩ | ⟨x, rfl⟩
  · rcases integer_or_float n with ⟨j, hj⟩ | ⟨y, rfl⟩
    · have hnot : ¬Rounded m n :=
        not_or.mpr ⟨not_roundsTo_of_integer hj, not_roundsTo_of_integer hi⟩
      rw [equivalent_integers hm hn hi hj, same_integers hi hj, or_iff_left hnot]
    · rw [equivalent_integer_float hi hn, Rounded, or_iff_left (not_roundsTo_of_float y)]
  · rcases integer_or_float n with ⟨j, hj⟩ | ⟨y, rfl⟩
    · rw [equivalent_comm, equivalent_integer_float hj hm, Rounded,
        or_iff_right (not_roundsTo_of_float x)]
      exact or_congr ⟨Same.symm, Same.symm⟩ Iff.rfl
    · have hnot : ¬Rounded (float x) (float y) :=
        not_or.mpr ⟨not_roundsTo_of_float x, not_roundsTo_of_float y⟩
      rw [equivalent_float, same_floats hm hn, or_iff_left hnot]
      exact Iff.rfl

theorem not_same_of_rounded (hm : m.Proper) (hn : n.Proper) (h : Rounded m n) : ¬Same m n := by
  have hrounds : ∀ {k l : JsonNumber}, l.Proper → RoundsTo k l → ¬Same k l := by
    rintro k l hl ⟨i, hi, rfl, hnone⟩ ⟨hvalue, -⟩
    exact hnone _ hl (hvalue.symm.trans (value_of_integer hi))
  rcases h with h | h
  · exact hrounds hn h
  · exact fun hsame => hrounds hm h hsame.symm

theorem toFloat_eq_of_equivalent (hm : m.Proper) (hn : n.Proper) (h : m.equivalent n = true) :
    m.toFloat = n.toFloat := by
  rcases integer_or_float n with ⟨j, hj⟩ | ⟨y, rfl⟩
  · rcases integer_or_float m with ⟨i, hi⟩ | ⟨x, rfl⟩
    · rw [toFloat_of_integer hi, toFloat_of_integer hj, (equivalent_integers hm hn hi hj).mp h]
    · rw [equivalent_comm, equivalent_float] at h
      exact h.symm
  · exact (equivalent_float m y).mp h

theorem not_equivalent_of_distinctIntegers (hm : m.Proper) (hn : n.Proper)
    (h : DistinctIntegers m n) : ¬m.equivalent n = true := by
  obtain ⟨i, j, hi, hj, hne⟩ := h
  rw [equivalent_integers hm hn hi hj]
  exact hne

/-- Two numbers that are equivalent to a third one are so to each other, unless they are
different integers, which are then rounded to the same float. -/
theorem equivalent_or_distinctIntegers (hk : k.Proper) (hm : m.Proper) (hn : n.Proper)
    (h : k.equivalent m = true) (h' : m.equivalent n = true) :
    k.equivalent n = true ∨ DistinctIntegers k n := by
  have hfloats : k.toFloat = n.toFloat :=
    (toFloat_eq_of_equivalent hk hm h).trans (toFloat_eq_of_equivalent hm hn h')
  rcases integer_or_float k with ⟨i, hi⟩ | ⟨x, rfl⟩
  · rcases integer_or_float n with ⟨j, hj⟩ | ⟨y, rfl⟩
    · by_cases hij : i = j
      · exact .inl ((equivalent_integers hk hn hi hj).mpr hij)
      · exact .inr ⟨i, j, hi, hj, hij⟩
    · exact .inl ((equivalent_float k y).mpr hfloats)
  · rw [equivalent_comm]
    exact .inl ((equivalent_float n x).mpr hfloats.symm)

end PickledModel.JsonNumber
