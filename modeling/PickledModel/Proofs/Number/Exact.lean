import Mathlib.Algebra.Ring.Int.Defs
import Mathlib.Algebra.Ring.Nat
import PickledModel.Number.Binary

/-! What finite floats denote. Counted in steps of the least exponent, a finite float is a
whole number that its word determines, and no two words without sign have the same one. So
different floats denote different numbers, the two zeros apart, and an integer that some
float denotes is rounded to that float. -/

set_option autoImplicit false

namespace PickledModel

theorem divEven_mul {m den : Nat} (h : 0 < den) : divEven (m * den) den = m := by
  have hrest : m * den % den = 0 := Nat.mul_mod_left m den
  simp only [divEven, hrest, Nat.mul_div_cancel m h]
  rw [if_neg]
  omega

namespace Dyadic

/-- The numbers that have a 64-bit word: a significand of 53 bits, of which only the least
exponent allows a smaller one. -/
structure Stored (d : Dyadic) : Prop where
  coefficient_lt : d.coefficient < 2 ^ 53
  least_le : -1074 ≤ d.exponent
  exponent_lt : d.exponent < 972
  full : d.exponent ≠ -1074 → 2 ^ 52 ≤ d.coefficient

def place (d : Dyadic) : Nat := (d.exponent + 1074).toNat * 2 ^ 52 + d.coefficient

def units (d : Dyadic) : Nat := d.coefficient * 2 ^ (d.exponent + 1074).toNat

def unitsOfOne : Nat := 2 ^ 1074

theorem unitsOfOne_ne_zero : unitsOfOne ≠ 0 := by
  rw [unitsOfOne]
  exact NeZero.ne _

variable {d d' : Dyadic}

theorem ratio_eq_units (h : -1074 ≤ d.exponent) :
    d.ratio.1 * unitsOfOne = d.units * d.ratio.2 := by
  have hexponents : d.exponent.toNat + 1074 = (d.exponent + 1074).toNat + (-d.exponent).toNat := by
    omega
  rw [ratio, units, unitsOfOne, Nat.mul_assoc, Nat.mul_assoc, ← Nat.pow_add, ← Nat.pow_add, hexponents]

/-- The larger exponent has the full significand, which no smaller exponent makes up for. -/
theorem Stored.units_lt (hd : d.Stored) (hd' : d'.Stored) (h : d.exponent < d'.exponent) :
    d.units < d'.units := by
  have hleast := hd.least_le
  have hfull : 2 ^ 52 ≤ d'.coefficient := hd'.full (by omega)
  obtain ⟨k, hk⟩ : ∃ k, (d'.exponent + 1074).toNat = (d.exponent + 1074).toNat + 1 + k :=
    Nat.exists_eq_add_of_le (by omega)
  have hpos : 0 < 2 ^ (d.exponent + 1074).toNat := Nat.two_pow_pos _
  calc d.units < 2 ^ 53 * 2 ^ (d.exponent + 1074).toNat :=
        Nat.mul_lt_mul_of_pos_right hd.coefficient_lt hpos
    _ = 2 ^ 52 * 2 ^ ((d.exponent + 1074).toNat + 1) := by rw [Nat.pow_succ]; omega
    _ ≤ d'.coefficient * 2 ^ (d'.exponent + 1074).toNat := by
        apply Nat.mul_le_mul hfull
        exact Nat.pow_le_pow_right (by decide) (by omega)

theorem Stored.place_eq_zero (hd : d.Stored) (h : d.units = 0) : d.place = 0 := by
  have hcoefficient : d.coefficient = 0 :=
    (Nat.mul_eq_zero.mp h).resolve_right (Nat.ne_of_gt (Nat.two_pow_pos _))
  have hexponent : d.exponent = -1074 := by
    have hfull := hd.full
    omega
  rw [place, hcoefficient, hexponent]
  rfl

theorem Stored.eq_of_units_eq (hd : d.Stored) (hd' : d'.Stored) (h : d.units = d'.units) :
    d = d' := by
  have hexponent : d.exponent = d'.exponent := by
    rcases Int.lt_trichotomy d.exponent d'.exponent with hlt | heq | hlt
    · exact absurd h (Nat.ne_of_lt (hd.units_lt hd' hlt))
    · exact heq
    · exact absurd h (Nat.ne_of_gt (hd'.units_lt hd hlt))
  have hcoefficient : d.coefficient = d'.coefficient := by
    rw [units, units, hexponent] at h
    exact Nat.eq_of_mul_eq_mul_right (Nat.two_pow_pos _) h
  cases d
  cases d'
  rw [mk.injEq]
  exact ⟨hcoefficient, hexponent⟩

end Dyadic

namespace BinaryFormat

theorem least_binary64 : binary64.least = -1074 := by decide

theorem fractions_binary64 : binary64.fractions = 2 ^ 52 := by decide

/-- A finite word without sign is that of the number it denotes. -/
theorem stored_of_finite {w : Nat} (hw : w < 2 ^ 63) (h : binary64.exponentField w ≠ 2047) :
    ∃ d, binary64.magnitude w = .finite d ∧ d.Stored ∧ d.place = w := by
  have hfield : binary64.exponentField w = w / 2 ^ 52 := by
    rw [exponentField, fractions_binary64]
    exact Nat.mod_eq_of_lt (by change w / 2 ^ 52 < 2048; omega)
  have htop : binary64.topExponent = 2047 := by decide
  rw [hfield] at h
  rw [magnitude, hfield, htop, least_binary64, fraction, fractions_binary64]
  simp only [if_neg h]
  by_cases hzero : w / 2 ^ 52 = 0
  · rw [if_pos hzero]
    refine ⟨_, rfl, ⟨?_, ?_, ?_, ?_⟩, ?_⟩ <;> simp only [Dyadic.place] <;> omega
  · rw [if_neg hzero]
    refine ⟨_, rfl, ⟨?_, ?_, ?_, ?_⟩, ?_⟩ <;> simp only [Dyadic.place] <;> omega

theorem log2Ratio_one {n : Nat} (hn : n ≠ 0) : log2Ratio n 1 = n.log2 := by
  have hle : 1 * 2 ^ n.log2 ≤ n * 2 ^ 0 := by
    rw [Nat.one_mul, Nat.pow_zero, Nat.mul_one]
    exact Nat.log2_self_le hn
  have hlog : Nat.log2 1 = 0 := by decide
  have hnat : (-(n.log2 : Int)).toNat = 0 := by omega
  simp only [log2Ratio, hlog, Int.natCast_zero, Int.sub_zero, Int.toNat_natCast, hnat]
  rw [if_pos hle]

/-- The least exponent has no integer but zero. -/
theorem full_of_integer {n : Nat} {d : Dyadic} (hd : d.Stored) (h : d.ratio.1 = n * d.ratio.2)
    (hn : n ≠ 0) : 2 ^ 52 ≤ d.coefficient := by
  apply hd.full
  intro hexponent
  have hscaled : d.coefficient * 2 ^ d.exponent.toNat = n * 2 ^ (-d.exponent).toNat := h
  have hcoefficient : d.coefficient = n * 2 ^ (-d.exponent).toNat := by
    rw [← hscaled, hexponent]
    exact (Nat.mul_one _).symm
  have hlarge : 2 ^ 53 ≤ n * 2 ^ (-d.exponent).toNat := by
    calc 2 ^ 53 ≤ 2 ^ (-d.exponent).toNat := Nat.pow_le_pow_right (by decide) (by omega)
      _ ≤ n * 2 ^ (-d.exponent).toNat := Nat.le_mul_of_pos_left _ (Nat.pos_of_ne_zero hn)
  exact absurd hd.coefficient_lt (hcoefficient ▸ Nat.not_lt.mpr hlarge)

/-- The last bit of a significand of 53 bits has the exponent of the number. -/
theorem log2_stored {n : Nat} {d : Dyadic} (hd : d.Stored) (h : d.ratio.1 = n * d.ratio.2)
    (hn : n ≠ 0) : (n.log2 : Int) = d.exponent + 52 := by
  have hfull := full_of_integer hd h hn
  have hscaled : d.coefficient * 2 ^ d.exponent.toNat = n * 2 ^ (-d.exponent).toNat := h
  have hlower : 2 ^ (52 + d.exponent.toNat) < 2 ^ (n.log2 + 1 + (-d.exponent).toNat) := by
    calc 2 ^ (52 + d.exponent.toNat) = 2 ^ 52 * 2 ^ d.exponent.toNat := Nat.pow_add ..
      _ ≤ d.coefficient * 2 ^ d.exponent.toNat := Nat.mul_le_mul_right _ hfull
      _ = n * 2 ^ (-d.exponent).toNat := hscaled
      _ < 2 ^ (n.log2 + 1) * 2 ^ (-d.exponent).toNat :=
          Nat.mul_lt_mul_of_pos_right Nat.lt_log2_self (Nat.two_pow_pos _)
      _ = 2 ^ (n.log2 + 1 + (-d.exponent).toNat) := (Nat.pow_add ..).symm
  have hupper : 2 ^ (n.log2 + (-d.exponent).toNat) < 2 ^ (53 + d.exponent.toNat) := by
    calc 2 ^ (n.log2 + (-d.exponent).toNat) = 2 ^ n.log2 * 2 ^ (-d.exponent).toNat := Nat.pow_add ..
      _ ≤ n * 2 ^ (-d.exponent).toNat := Nat.mul_le_mul_right _ (Nat.log2_self_le hn)
      _ = d.coefficient * 2 ^ d.exponent.toNat := hscaled.symm
      _ < 2 ^ 53 * 2 ^ d.exponent.toNat :=
          Nat.mul_lt_mul_of_pos_right hd.coefficient_lt (Nat.two_pow_pos _)
      _ = 2 ^ (53 + d.exponent.toNat) := (Nat.pow_add ..).symm
  have hlower' := (Nat.pow_lt_pow_iff_right (by decide)).mp hlower
  have hupper' := (Nat.pow_lt_pow_iff_right (by decide)).mp hupper
  omega

/-- An integer that has a word is rounded to that word. -/
theorem round_stored {n : Nat} {d : Dyadic} (hd : d.Stored) (h : d.ratio.1 = n * d.ratio.2) :
    binary64.round n 1 = d.place := by
  have hscaled : d.coefficient * 2 ^ d.exponent.toNat = n * 2 ^ (-d.exponent).toNat := h
  by_cases hn : n = 0
  · have hcoefficient : d.coefficient = 0 := by
      rw [hn, Nat.zero_mul] at hscaled
      exact (Nat.mul_eq_zero.mp hscaled).resolve_right (Nat.ne_of_gt (Nat.two_pow_pos _))
    have hunits : d.units = 0 := by rw [Dyadic.units, hcoefficient, Nat.zero_mul]
    rw [round, if_pos hn, hd.place_eq_zero hunits]
  · have hlast : max binary64.least (log2Ratio n 1 - (binary64.precision - 1 : Nat)) = d.exponent := by
      have hlog := log2_stored hd h hn
      have hleast := hd.least_le
      have hprecision : ((binary64.precision - 1 : Nat) : Int) = 52 := by decide
      rw [least_binary64, log2Ratio_one hn, hprecision]
      omega
    have hsignificand : divEven (n * 2 ^ (-d.exponent).toNat) (1 * 2 ^ d.exponent.toNat) =
        d.coefficient := by
      rw [← hscaled, Nat.one_mul, divEven_mul (Nat.two_pow_pos _)]
    have hinfinity : binary64.infinityBits = 2047 * 2 ^ 52 := by decide
    have hbelow : d.place ≤ 2047 * 2 ^ 52 := by
      obtain ⟨hlt, hleast, hexponent, -⟩ := hd
      rw [Dyadic.place]
      omega
    rw [round, if_neg hn, hlast]
    dsimp only
    rw [hsignificand, hinfinity, least_binary64, fractions_binary64, Int.sub_neg]
    exact Nat.min_eq_left hbelow

end BinaryFormat

namespace Binary64

def word (x : Binary64) : Nat := x.bits.toNat % 2 ^ 63

def minusZero : Binary64 := ⟨0x8000000000000000⟩

def value (x : Binary64) : Rat :=
  match x.magnitude with
  | .finite d => mkRat (if x.negative then -(d.ratio.1 : Int) else d.ratio.1) d.ratio.2
  | _ => 0

variable {x y : Binary64}

theorem ofParts_word (x : Binary64) : ofParts x.negative x.word = x := by
  obtain ⟨bits⟩ := x
  have hlt := bits.toNat_lt
  rw [ofParts, negative, word, mk.injEq, ← UInt64.toNat_inj, UInt64.toNat_ofNat']
  dsimp only
  by_cases hsign : 2 ^ 63 ≤ bits.toNat
  · rw [if_pos (decide_eq_true hsign)]
    omega
  · rw [if_neg (by simpa using hsign)]
    omega

theorem exponentField_word (x : Binary64) :
    BinaryFormat.binary64.exponentField x.word = BinaryFormat.binary64.exponentField x.bits.toNat := by
  have hwidth : BinaryFormat.binary64.exponentWidth = 11 := rfl
  rw [BinaryFormat.exponentField, BinaryFormat.exponentField, BinaryFormat.fractions_binary64, hwidth,
    word]
  omega

theorem magnitude_word (x : Binary64) : BinaryFormat.binary64.magnitude x.word = x.magnitude := by
  have hfraction : BinaryFormat.binary64.fraction x.word =
      BinaryFormat.binary64.fraction x.bits.toNat := by
    rw [BinaryFormat.fraction, BinaryFormat.fraction, BinaryFormat.fractions_binary64, word]
    omega
  rw [magnitude, BinaryFormat.magnitude, BinaryFormat.magnitude, exponentField_word, hfraction]

theorem stored (hx : x.isFinite = true) :
    ∃ d, x.magnitude = .finite d ∧ d.Stored ∧ d.place = x.word := by
  have hlt : x.word < 2 ^ 63 := Nat.mod_lt _ (by decide)
  have hfield : BinaryFormat.binary64.exponentField x.word ≠ 2047 := by
    rw [exponentField_word]
    simpa [isFinite] using hx
  rw [← magnitude_word]
  exact BinaryFormat.stored_of_finite hlt hfield

def signed (x : Binary64) (n : Nat) : Int := if x.negative then -(n : Int) else n

theorem natAbs_signed (x : Binary64) (n : Nat) : (x.signed n).natAbs = n := by
  unfold signed
  split <;> omega

theorem signed_mul (x : Binary64) (m n : Nat) : x.signed (m * n) = x.signed m * n := by
  unfold signed
  split
  · rw [Int.natCast_mul, Int.neg_mul]
  · rw [Int.natCast_mul]

theorem value_of_magnitude {d : Dyadic} (h : x.magnitude = .finite d) :
    x.value = mkRat (x.signed d.ratio.1) d.ratio.2 := by
  rw [value, h]
  rfl

theorem value_eq_units {d : Dyadic} (h : x.magnitude = .finite d) (hd : d.Stored) :
    x.value = mkRat (x.signed d.units) Dyadic.unitsOfOne := by
  have hden := Nat.ne_of_gt d.ratio_den_pos
  rw [value_of_magnitude h, Rat.mkRat_eq_iff hden Dyadic.unitsOfOne_ne_zero, ← signed_mul, ← signed_mul,
    Dyadic.ratio_eq_units hd.least_le]

theorem negative_ofInt (i : Int) : (ofInt i).negative = decide (i < 0) := by
  have hinfinity : BinaryFormat.binary64.infinityBits < 2 ^ 63 := by decide
  have hround : BinaryFormat.binary64.round i.natAbs 1 < 2 ^ 63 := by
    apply Nat.lt_of_le_of_lt _ hinfinity
    unfold BinaryFormat.round
    split
    · exact Nat.zero_le _
    · exact Nat.min_le_right _ _
  rw [ofInt, ofRatio, ofParts, negative, UInt64.toNat_ofNat']
  by_cases hi : i < 0
  · rw [decide_eq_true hi, if_pos rfl]
    exact decide_eq_true (by omega)
  · rw [decide_eq_false hi, if_neg Bool.false_ne_true]
    exact decide_eq_false (by omega)

theorem eq_zero_of_word (h : x.word = 0) : x = zero ∨ x = minusZero := by
  have hx := ofParts_word x
  rw [h] at hx
  cases hsign : x.negative with
  | true =>
    rw [hsign] at hx
    exact .inr hx.symm
  | false =>
    rw [hsign] at hx
    exact .inl hx.symm

theorem value_of_word_eq_zero (hx : x.isFinite = true) (h : x.word = 0) : x.value = (0 : Int) := by
  obtain ⟨d, hd, -, hplace⟩ := stored hx
  have hcoefficient : d.coefficient = 0 := by
    rw [← hplace, Dyadic.place] at h
    omega
  have hsigned : x.signed 0 = 0 := by simp [signed]
  rw [value_of_magnitude hd, Dyadic.ratio, hcoefficient, Nat.zero_mul, hsigned, Rat.zero_mkRat]
  rfl

/-- Finite floats that denote the same number are the same one, or the two zeros. -/
theorem eq_of_value_eq (hx : x.isFinite = true) (hy : y.isFinite = true) (h : x.value = y.value)
    (hzero : x = minusZero ↔ y = minusZero) : x = y := by
  obtain ⟨d, hd, hstored, hplace⟩ := stored hx
  obtain ⟨d', hd', hstored', hplace'⟩ := stored hy
  have hone := Dyadic.unitsOfOne_ne_zero
  rw [value_eq_units hd hstored, value_eq_units hd' hstored', Rat.mkRat_eq_iff hone hone] at h
  have hsigned : x.signed d.units = y.signed d'.units :=
    Int.eq_of_mul_eq_mul_right (Int.natCast_ne_zero.mpr hone) h
  have hunits : d.units = d'.units := by
    rw [← natAbs_signed x d.units, hsigned, natAbs_signed]
  have hword : x.word = y.word := by
    rw [← hplace, ← hplace', hstored.eq_of_units_eq hstored' hunits]
  by_cases hsign : x.negative = y.negative
  · rw [← ofParts_word x, ← ofParts_word y, hsign, hword]
  · have hunitless : d.units = 0 := by
      unfold signed at hsigned
      cases hnx : x.negative <;> cases hny : y.negative
      · exact absurd (hnx.trans hny.symm) hsign
      · rw [hnx, hny, if_neg Bool.false_ne_true, if_pos rfl] at hsigned
        omega
      · rw [hnx, hny, if_pos rfl, if_neg Bool.false_ne_true] at hsigned
        omega
      · exact absurd (hnx.trans hny.symm) hsign
    have hword : x.word = 0 := by rw [← hplace, hstored.place_eq_zero hunitless]
    have hword' : y.word = 0 := by rw [← hplace', hstored'.place_eq_zero (hunits ▸ hunitless)]
    have hzeros : zero ≠ minusZero := by decide
    rcases eq_zero_of_word hword with rfl | rfl <;> rcases eq_zero_of_word hword' with rfl | rfl
    · rfl
    · exact absurd (hzero.mpr rfl) hzeros
    · exact absurd (hzero.mp rfl) hzeros
    · rfl

/-- An integer that a float denotes is rounded to it, the positive one of the two zeros. -/
theorem ofInt_of_value {i : Int} (hx : x.isFinite = true) (h : x.value = i)
    (hzero : x ≠ minusZero) : ofInt i = x := by
  by_cases hi : i = 0
  · subst hi
    have hfinite : (ofInt 0).isFinite = true := by decide
    have hsame : (ofInt 0).value = x.value := by
      rw [h, value_of_word_eq_zero hfinite (by decide)]
    exact eq_of_value_eq hfinite hx hsame (iff_of_false (by decide) hzero)
  · obtain ⟨d, hd, hstored, hplace⟩ := stored hx
    have hden := Nat.ne_of_gt d.ratio_den_pos
    have hpos : 0 < (d.ratio.2 : Int) := Int.natCast_pos.mpr d.ratio_den_pos
    rw [value_of_magnitude hd, ← Rat.mkRat_one, Rat.mkRat_eq_iff hden Nat.one_ne_zero,
      Int.natCast_one, Int.mul_one] at h
    have hnatAbs : d.ratio.1 = i.natAbs * d.ratio.2 := by
      have habs := congrArg Int.natAbs h
      rwa [natAbs_signed, Int.natAbs_mul, Int.natAbs_natCast] at habs
    have hsize : 0 < d.ratio.1 := by
      rw [hnatAbs]
      exact Nat.mul_pos (Int.natAbs_pos.mpr hi) d.ratio_den_pos
    have hnegative : decide (i < 0) = x.negative := by
      unfold signed at h
      cases hsign : x.negative with
      | true =>
        have hproduct : i * d.ratio.2 < 0 := by
          rw [hsign, if_pos rfl] at h
          omega
        exact decide_eq_true (Int.neg_of_mul_neg_left hproduct hpos)
      | false =>
        have hproduct : 0 < i * d.ratio.2 := by
          rw [hsign, if_neg Bool.false_ne_true] at h
          omega
        exact decide_eq_false (Int.not_lt.mpr (Int.le_of_lt (Int.pos_of_mul_pos_left hproduct hpos)))
    rw [ofInt, ofRatio, BinaryFormat.round_stored hstored hnatAbs, hplace, hnegative, ofParts_word]

/-- The float that an integer is rounded to denotes it if any float does. -/
theorem value_ofInt {i : Int} (hx : x.isFinite = true) (h : x.value = i) :
    (ofInt i).value = i ∧ ofInt i ≠ minusZero := by
  by_cases hzero : x = minusZero
  · have hi : i = 0 := by
      rw [hzero, value_of_word_eq_zero (by decide) (by decide)] at h
      exact (Rat.intCast_inj.mp h).symm
    subst hi
    exact ⟨value_of_word_eq_zero (by decide) (by decide), by decide⟩
  · rw [ofInt_of_value hx h hzero]
    exact ⟨h, hzero⟩

end Binary64

end PickledModel
