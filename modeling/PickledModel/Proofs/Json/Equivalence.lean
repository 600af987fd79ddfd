import PickledModel.Proofs.Json.Alike

/-! What equivalence of documents is. It is reflexive, symmetric and blind to the order of
members, and holds of all documents that denote the same. It is not transitive, as an integer
that no float denotes is equivalent to the float it is rounded to, and so are others. -/

set_option autoImplicit false

namespace PickledModel.Json
open JsonNumber

variable {a b c : Json}

/-- Documents that agree but for the order of members and the way their numbers are written. -/
abbrev SameContent : Json → Json → Prop := Alike Same

theorem equivalent_comm (ha : a.Proper) (hb : b.Proper) : a.equivalent b = b.equivalent a := by
  have hswap : ∀ m n : JsonNumber, m.equivalent n = true → n.equivalent m = true :=
    fun m n h => (JsonNumber.equivalent_comm n m).trans h
  rw [Bool.eq_iff_iff, equivalent_iff_alike ha hb, equivalent_iff_alike hb ha]
  exact ⟨Alike.symm hswap, Alike.symm hswap⟩

theorem equivalent_iff_same_or_rounded (ha : a.Proper) (hb : b.Proper) :
    a.equivalent b = true ↔ Alike (fun m n => Same m n ∨ Rounded m n) a b := by
  rw [equivalent_iff_alike ha hb]
  constructor
  · intro h
    apply (h.proper ha hb).mono
    rintro m n ⟨hm, hn, h⟩
    exact (equivalent_iff hm hn).mp h
  · intro h
    apply (h.proper ha hb).mono
    rintro m n ⟨hm, hn, h⟩
    exact (equivalent_iff hm hn).mpr h

theorem equivalent_of_sameContent (ha : a.Proper) (hb : b.Proper) (h : SameContent a b) :
    a.equivalent b = true :=
  (equivalent_iff_same_or_rounded ha hb).mpr (h.mono fun _ _ => .inl)

/-- Equivalent documents have the same content unless a number is rounded at some place. -/
theorem sameContent_iff (ha : a.Proper) (hb : b.Proper) (h : a.equivalent b = true) :
    SameContent a b ↔ ¬Somewhere Rounded a b := by
  constructor
  · intro hsame hrounded
    obtain ⟨m, n, ⟨hm, hn, h⟩, h'⟩ := hrounded.meets (hsame.proper ha hb)
    exact not_same_of_rounded hm hn h' h
  · intro hnot
    apply ((equivalent_iff_same_or_rounded ha hb).mp h).or_somewhere.resolve_right
    intro hsome
    exact hnot (hsome.mono fun m n h => h.1.resolve_left h.2)

theorem equivalent_trans_iff (ha : a.Proper) (hb : b.Proper) (hc : c.Proper)
    (h : a.equivalent b = true) (h' : b.equivalent c = true) :
    a.equivalent c = true ↔ ¬Somewhere DistinctIntegers a c := by
  rw [equivalent_iff_alike ha hb] at h
  rw [equivalent_iff_alike hb hc] at h'
  rw [equivalent_iff_alike ha hc]
  constructor
  · intro hac hdistinct
    obtain ⟨k, n, ⟨hk, hn, hkn⟩, hne⟩ := hdistinct.meets (hac.proper ha hc)
    exact not_equivalent_of_distinctIntegers hk hn hne hkn
  · intro hnot
    -- at each place the two numbers are equivalent or different integers
    have hchain : Alike (fun k n => k.equivalent n = true ∨ DistinctIntegers k n) a c := by
      apply (h.proper ha hb).trans _ (h'.proper hb hc)
      rintro k m n ⟨hk, hm, hkm⟩ ⟨-, hn, hmn⟩
      exact equivalent_or_distinctIntegers hk hm hn hkm hmn
    apply hchain.or_somewhere.resolve_right
    intro hsome
    exact hnot (hsome.mono fun k n h => h.1.resolve_left h.2)

/-- Equivalence compares documents by what they denote, up to rounding. It is reflexive and
symmetric, and reordered members make no difference. It holds exactly if the numbers at each
place denote the same or one of them is rounded to the other. Two documents equivalent to a
third one fail to be so to each other exactly if they have different integers at some place,
and only then does the way in which numbers are written decide a comparison. -/
theorem equivalent_laws (ha : a.Proper) (hb : b.Proper) (hc : c.Proper) :
    a.equivalent a = true ∧
    a.equivalent b = b.equivalent a ∧
    (Alike Eq a b → a.equivalent c = b.equivalent c) ∧
    (a.equivalent b = true ↔ Alike (fun m n => Same m n ∨ Rounded m n) a b) ∧
    (a.equivalent b = true → (SameContent a b ↔ ¬Somewhere Rounded a b)) ∧
    (a.equivalent b = true → b.equivalent c = true →
      (a.equivalent c = true ↔ ¬Somewhere DistinctIntegers a c)) ∧
    (SameContent b c → (a.equivalent b ≠ a.equivalent c ↔
      a.equivalent b = true ∧ Somewhere DistinctIntegers a c ∨
        a.equivalent c = true ∧ Somewhere DistinctIntegers a b)) := by
  refine ⟨?_, equivalent_comm ha hb, ?_, equivalent_iff_same_or_rounded ha hb, sameContent_iff ha hb,
    equivalent_trans_iff ha hb hc, ?_⟩
  · exact equivalent_of_sameContent ha ha (.refl (fun m _ => .refl m) ha)
  · intro h
    have hsame : ∀ k m n : JsonNumber, k = m → m.equivalent n = true → k.equivalent n = true := by
      rintro k m n rfl hmn
      exact hmn
    rw [Bool.eq_iff_iff, equivalent_iff_alike ha hc, equivalent_iff_alike hb hc]
    constructor
    · exact Alike.trans hsame (h.symm fun _ _ => Eq.symm)
    · exact Alike.trans hsame h
  · intro h
    have hbc := equivalent_of_sameContent hb hc h
    have hcb : c.equivalent b = true := equivalent_comm hb hc ▸ hbc
    have hright := fun hab => equivalent_trans_iff ha hb hc hab hbc
    have hleft := fun hac => equivalent_trans_iff ha hc hb hac hcb
    cases hab : a.equivalent b <;> cases hac : a.equivalent c
    · simp
    · simp_all
    · simp_all
    · simp_all

def integers (x y : UInt64) : Json :=
  .object [("x", .number (.natural x)), ("y", .number (.natural y))]

def floats (x y : Binary64) : Json :=
  .object [("y", .number (.float y)), ("x", .number (.float x))]

theorem integers_proper (x y : UInt64) : (integers x y).Proper := by
  refine .object (by simp) ?_
  simpa using ⟨.number trivial, .number trivial⟩

theorem floats_proper {x y : Binary64} (hx : x.isFinite = true) (hy : y.isFinite = true) :
    (floats x y).Proper := by
  refine .object (by simp) ?_
  simpa using ⟨.number hy, .number hx⟩

theorem integers_equivalent_floats (x y : UInt64) :
    (integers x y).equivalent (floats (natural x).toFloat (natural y).toFloat) = true := by
  have hx := (equivalent_float (natural x) _).mpr rfl
  have hy := (equivalent_float (natural y) _).mpr rfl
  rw [integers, floats, equivalent_object]
  simp [Members.get?, equivalent, hx, hy]

theorem equivalent_laws_reordered :
    (integers 1 9007199254740993).Proper ∧
    (floats ⟨0x3ff0000000000000⟩ ⟨0x4340000000000000⟩).Proper ∧
    (integers 1 9007199254740992).Proper ∧
    (integers 1 9007199254740993).equivalent (floats ⟨0x3ff0000000000000⟩ ⟨0x4340000000000000⟩) =
      true ∧
    (floats ⟨0x3ff0000000000000⟩ ⟨0x4340000000000000⟩).equivalent (integers 1 9007199254740992) =
      true ∧
    Somewhere DistinctIntegers (integers 1 9007199254740993) (integers 1 9007199254740992) ∧
    (integers 1 9007199254740993).equivalent (integers 1 9007199254740992) = false := by
  have ha := integers_proper 1 9007199254740993
  have hb : (floats ⟨0x3ff0000000000000⟩ ⟨0x4340000000000000⟩).Proper := floats_proper rfl rfl
  have hc := integers_proper 1 9007199254740992
  -- both integers are rounded to the second float
  have hab := integers_equivalent_floats 1 9007199254740993
  have hcb := integers_equivalent_floats 1 9007199254740992
  obtain ⟨-, hcomm, -⟩ := equivalent_laws hb hc ha
  obtain ⟨-, -, -, -, -, htrans, -⟩ := equivalent_laws ha hb hc
  have hbc := hcomm.trans hcb
  have hdistinct : Somewhere DistinctIntegers (integers 1 9007199254740993)
      (integers 1 9007199254740992) :=
    .object (.tail _ (.head _)) (.tail _ (.head _)) (.number ⟨_, _, rfl, rfl, by decide⟩)
  refine ⟨ha, hb, hc, hab, hbc, hdistinct, ?_⟩
  rw [← Bool.not_eq_true, htrans hab hbc]
  exact not_not_intro hdistinct

theorem rounding_breaks_transitivity :
    (number (.natural 9007199254740993)).Proper ∧
    (number (.float ⟨0x4340000000000000⟩)).Proper ∧
    (number (.natural 9007199254740992)).Proper ∧
    (number (.natural 9007199254740993)).equivalent (number (.float ⟨0x4340000000000000⟩)) = true ∧
    (number (.float ⟨0x4340000000000000⟩)).equivalent (number (.natural 9007199254740992)) = true ∧
    (number (.natural 9007199254740993)).equivalent (number (.natural 9007199254740992)) = false ∧
    (natural 9007199254740993).value ≠ (JsonNumber.float ⟨0x4340000000000000⟩).value := by
  refine ⟨.number trivial, .number rfl, .number trivial, ?_, ?_, ?_, by decide +kernel⟩
  all_goals
    rw [equivalent]
    decide +kernel

end PickledModel.Json
