import Mathlib.Logic.Relation
import PickledModel.Proofs.Value.Footprint

/-! Footprints in any order. A traversal holds a running total and the values that
are still to be visited; any of them may be visited next, and its children may be
put anywhere among the others. Every traversal ends, and they all end with the same
result, which is the size of the value if that is within the limit. -/

set_option autoImplicit false

namespace PickledModel.Value

structure Tally where
  total : Nat
  pending : List Value

namespace Tally

variable {limit : Nat} {t t' : Tally} {o : Option Nat}

def plus (t : Tally) (v : Value) : Nat := min (t.total + v.shallowSize) largestSize

/-- A visit takes any pending value and puts its children among the others. -/
inductive Step (limit : Nat) : Tally → Tally → Prop
  | visit {t : Tally} {v : Value} {rest pending : List Value} (taken : t.pending.Perm (v :: rest))
      (within : t.plus v ≤ limit) (put : pending.Perm (v.children ++ rest)) :
      Step limit t ⟨t.plus v, pending⟩

inductive Ends (limit : Nat) : Tally → Option Nat → Prop
  | counted {total : Nat} : Ends limit ⟨total, []⟩ (some total)
  | past {t : Tally} {v : Value} {rest : List Value} (taken : t.pending.Perm (v :: rest))
      (exceeds : limit < t.plus v) : Ends limit t .none

def bytes (t : Tally) : Nat := min (t.total + (t.pending.map size).sum) largestSize

theorem sum_size_of_taken {v : Value} {rest : List Value} (h : t.pending.Perm (v :: rest)) :
    (t.pending.map size).sum = v.shallowSize + ((v.children ++ rest).map size).sum := by
  have hsize := v.size_eq
  rw [(h.map size).sum_eq, List.map_cons, List.sum_cons, List.map_append, List.sum_append]
  omega

/-- A visit moves bytes from what is pending to the total. -/
theorem Step.bytes_eq (h : Step limit t t') : t'.bytes = t.bytes := by
  obtain ⟨taken, -, put⟩ := h
  have hsum := sum_size_of_taken taken
  rw [bytes, bytes, (put.map size).sum_eq]
  dsimp only [plus]
  omega

theorem Step.total_le (h : Step limit t t') : t'.total ≤ limit ∧ t'.total ≤ largestSize := by
  obtain ⟨-, within, -⟩ := h
  exact ⟨within, Nat.min_le_right _ _⟩

/-- Each visit leaves fewer values to visit, counting those inside the pending ones. -/
theorem Step.weight_lt (h : Step limit t t') :
    (t'.pending.map weight).sum < (t.pending.map weight).sum := by
  cases h with
  | @visit v rest pending taken within put =>
    have hweight := v.weight_eq
    rw [(taken.map weight).sum_eq, (put.map weight).sum_eq, List.map_append, List.sum_append,
      List.map_cons, List.sum_cons]
    omega

/-- No traversal goes on for ever. -/
theorem step_wellFounded (limit : Nat) : WellFounded fun t' t => Step limit t t' :=
  Subrelation.wf Step.weight_lt (measure fun t : Tally => (t.pending.map weight).sum).wf

/-- Whatever value is taken and wherever its children are put, the traversal goes on or ends. -/
theorem step_or_ends (t : Tally) {v : Value} {rest pending : List Value}
    (taken : t.pending.Perm (v :: rest)) (put : pending.Perm (v.children ++ rest)) :
    Step limit t ⟨t.plus v, pending⟩ ∨ Ends limit t .none := by
  by_cases h : t.plus v ≤ limit
  · exact .inl (.visit taken h put)
  · exact .inr (.past taken (Nat.lt_of_not_le h))

theorem exists_step_or_ends (limit : Nat) (t : Tally) :
    (∃ t', Step limit t t') ∨ ∃ o, Ends limit t o := by
  obtain ⟨total, pending⟩ := t
  cases pending with
  | nil => exact .inr ⟨_, .counted⟩
  | cons v rest =>
    rcases step_or_ends ⟨total, v :: rest⟩ (.refl _) (.refl _) with hstep | hends
    · exact .inl ⟨_, hstep⟩
    · exact .inr ⟨_, hends⟩

/-- At its end a traversal gives all bytes, or finds that they pass the limit. -/
theorem Ends.eq (h : Ends limit t o) (hlimit : t.total ≤ limit) (hword : t.total ≤ largestSize) :
    o = if t.bytes ≤ limit then some t.bytes else .none := by
  cases h with
  | @counted total =>
    have hbytes : bytes ⟨total, []⟩ = total := Nat.min_eq_left hword
    rw [hbytes, if_pos hlimit]
  | @past _ v rest taken exceeds =>
    have hsum := sum_size_of_taken taken
    rw [plus] at exceeds
    rw [if_neg]
    rw [bytes]
    omega

abbrev Steps (limit : Nat) : Tally → Tally → Prop := Relation.ReflTransGen (Step limit)

/-- What holds of the totals at the start of a traversal holds throughout, and no bytes are lost. -/
theorem Steps.bytes_eq (h : Steps limit t t') (hlimit : t.total ≤ limit)
    (hword : t.total ≤ largestSize) :
    t'.total ≤ limit ∧ t'.total ≤ largestSize ∧ t'.bytes = t.bytes := by
  induction h with
  | refl => exact ⟨hlimit, hword, rfl⟩
  | tail _ hstep ih =>
    obtain ⟨hl, hw⟩ := hstep.total_le
    exact ⟨hl, hw, hstep.bytes_eq.trans ih.2.2⟩

/-- All traversals of the same values end alike. -/
theorem Steps.ends_eq (h : Steps limit t t') (hlimit : t.total ≤ limit)
    (hword : t.total ≤ largestSize) (hends : Ends limit t' o) :
    o = if t.bytes ≤ limit then some t.bytes else .none := by
  obtain ⟨hl, hw, hbytes⟩ := h.bytes_eq hlimit hword
  rw [hends.eq hl hw, hbytes]

/-- Charging visits the first of the pending values each time. -/
theorem charge_steps (limit total : Nat) (pending : List Value) :
    ∃ t, Steps limit ⟨total, pending⟩ t ∧ Ends limit t (charge limit total pending) := by
  induction total, pending using charge.induct limit with
  | case1 total =>
    rw [charge]
    exact ⟨_, .refl, .counted⟩
  | case2 total v pending next hnext =>
    rw [charge, if_pos hnext]
    exact ⟨_, .refl, .past (.refl _) hnext⟩
  | case3 total v pending next hnext ih =>
    obtain ⟨t, hsteps, hends⟩ := ih
    have hfirst : Step limit ⟨total, v :: pending⟩ ⟨next, v.children ++ pending⟩ :=
      .visit (.refl _) (Nat.le_of_not_lt hnext) (.refl _)
    rw [charge, if_neg hnext]
    exact ⟨t, .head hfirst hsteps, hends⟩

end Tally

def tally (v : Value) : Tally := ⟨0, [v]⟩

theorem bytes_tally (v : Value) : v.tally.bytes = v.cost := by
  simp [tally, Tally.bytes, cost]

theorem cost_eq_size {v : Value} (h : v.size < 2 ^ 64) : v.cost = v.size := by
  rw [cost, largestSize]
  omega

/-- A footprint is the result of every traversal. -/
theorem footprint?_iff_ends {v : Value} {limit : Nat} {o : Option Nat} :
    (∃ t, Tally.Steps limit v.tally t ∧ t.Ends limit o) ↔ o = v.footprint? limit := by
  constructor
  · rintro ⟨t, hsteps, hends⟩
    have hresult := hsteps.ends_eq (Nat.zero_le limit) (Nat.zero_le largestSize) hends
    rw [hresult, bytes_tally, footprint?_eq]
  · rintro rfl
    exact Tally.charge_steps limit 0 [v]

end PickledModel.Value
