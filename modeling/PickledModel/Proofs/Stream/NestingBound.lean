import Mathlib
import PickledModel.Proofs.Stream.Reachability

/-! The nesting bound. In every state that loads of a byte run go through, the
levels recorded for a value are at least those it nests and at most the limit,
so no load gives a value that nests deeper. -/

set_option autoImplicit false

namespace PickledModel

def Held.Bounded (h : Held) : Prop := h.value.nesting ≤ h.depth ∧ h.depth ≤ maxNesting

theorem Taken.nesting_le {n : Nat} {v : Value} (h : Taken Held.Bounded n v) : v.nesting ≤ n := by
  obtain ⟨h, hb, hd, rfl⟩ := h
  have hv := Value.nesting_normalize_le h.value
  have hh := hb.1
  omega

namespace Machine

theorem bounded_closed : Closed Held.Bounded where
  make n v hv hn := by
    refine ⟨?_, hn⟩
    change v.nesting ≤ levelsOver n v
    rw [levelsOver]
    by_cases h : v.nests
    · rw [if_pos h, Value.nesting_le_succ_iff]
      intro c hc
      exact (hv c hc).least (Value.hereditary_nesting_le n) fun _ => Taken.nesting_le
    · rw [Value.nesting_eq, if_neg h]
      exact Nat.zero_le _
  change n h v hb hn hv := by
    have hparts : ∀ c ∈ v.children, c.nesting ≤ max (h.depth - 1) n := by
      intro c hc
      apply (hv c hc).least (Value.hereditary_nesting_le _)
      intro u hu
      rcases hu with hu | hu
      · have hlt := Value.nesting_lt_of_mem hu
        have hh := hb.1
        omega
      · have hle := Taken.nesting_le hu
        omega
    have hvalue := Value.nesting_le_succ_iff.mpr hparts
    have hdepth := hb.2
    constructor
    · change v.nesting ≤ max h.depth (n + 1)
      omega
    · exact Nat.max_le.mpr ⟨hdepth, hn⟩

theorem Reachable.bounded {data : Bytes} {m : Machine} (hm : Reachable data m) :
    m.Holds Held.Bounded := hm.holds bounded_closed

theorem Reachable.load_nesting_le {data : Bytes} {m : Machine} (hm : Reachable data m)
    (r : Registry) {v : Value} (h : (m.load r).1 = .ok v) : v.nesting ≤ maxNesting := by
  obtain ⟨g, hg, rfl⟩ := hm.load_holds bounded_closed h
  have hv := Value.nesting_normalize_le g.value
  have hn := hg.1
  have hd := hg.2
  omega

/-- Every slot and memo entry of a reachable state has recorded levels between
its nesting and the limit, and every value that a load gives is within the limit. -/
theorem nesting_bounded {data : Bytes} {m : Machine} (hm : Reachable data m) :
    m.Holds Held.Bounded ∧
      ∀ r, Reachable data (m.load r).2 ∧ ∀ v, (m.load r).1 = .ok v → v.nesting ≤ maxNesting :=
  ⟨hm.bounded, fun r => ⟨hm.loaded r, fun _ h => hm.load_nesting_le r h⟩⟩

/-- A list put into the memo by a load that fails, and a tuple of it loaded next. -/
theorem nesting_bounded_after_failure :
    Reachable [0x5d, 0x71, 0x00, 0x61, 0x68, 0x00, 0x85, 0x2e]
        ((ofBytes [0x5d, 0x71, 0x00, 0x61, 0x68, 0x00, 0x85, 0x2e]).load .empty).2 ∧
      (((ofBytes [0x5d, 0x71, 0x00, 0x61, 0x68, 0x00, 0x85, 0x2e]).load .empty).2.load .empty).1 =
        .ok (.tuple [.list []]) ∧
      (Value.tuple [.list []]).nesting ≤ maxNesting := by
  have hm : Reachable [0x5d, 0x71, 0x00, 0x61, 0x68, 0x00, 0x85, 0x2e] _ :=
    Reachable.ofBytes.loaded .empty
  have hload : (((ofBytes [0x5d, 0x71, 0x00, 0x61, 0x68, 0x00, 0x85, 0x2e]).load
      .empty).2.load .empty).1 = .ok (.tuple [.list []]) := by cbv
  exact ⟨hm, hload, ((nesting_bounded hm).2 .empty).2 _ hload⟩

end Machine

end PickledModel
