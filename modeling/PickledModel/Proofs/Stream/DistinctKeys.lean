import Mathlib
import PickledModel.Proofs.Value.Equality
import PickledModel.Proofs.Value.Members
import PickledModel.Proofs.Stream.Reachability

/-! Distinct keys throughout. A slot or a memo entry may hold a dict or set with
repeated keys, but everything inside it was made distinct when it was taken out of
a slot, and only what a slot or an entry holds itself is changed in place. A result
is taken out of a slot too, so it repeats no key at any depth. -/

set_option autoImplicit false

namespace PickledModel

namespace Value

def keys : Value → List Value
  | .dict entries => entries.map Prod.fst
  | .set items => items
  | .frozenSet items => items
  | _ => []

inductive Distinct : Value → Prop where
  | intro {v : Value} (hkeys : v.keys.Pairwise fun a b => a.equal b = false ∧ b.equal a = false)
      (hchildren : ∀ c ∈ v.children, Distinct c) : Distinct v

theorem hereditary_distinct : Hereditary Distinct where
  none := .intro .nil (by simp [children])
  child _ hv := by
    cases hv with
    | intro _ hchildren => exact hchildren

theorem keys_normalize (v : Value) :
    v.normalize.keys.Pairwise fun a b => a.equal b = false ∧ b.equal a = false := by
  have hentries : ∀ entries : List (Value × Value), ((distinctEntries entries).map Prod.fst).Pairwise
      fun a b => a.equal b = false ∧ b.equal a = false := by
    intro entries
    have hdistinct : DistinctKeys (distinctEntries entries) := by
      rw [distinctEntries_eq_insertEntries]
      exact insertEntries_distinctKeys .nil
    apply List.pairwise_map.mpr
    apply hdistinct.imp
    intro e e' he
    exact ⟨he, (equal_comm _ _).trans he⟩
  cases v with
  | dict entries => exact hentries entries
  | sequence kind items =>
    have hitems : (distinctItems items).Pairwise
        fun a b => a.equal b = false ∧ b.equal a = false := by
      rw [distinctItems_eq_map]
      exact hentries _
    cases kind with
    | set => exact hitems
    | frozenSet => exact hitems
    | list => exact .nil
    | tuple => exact .nil
  | leaf l => exact .nil
  | object typeName body => exact .nil

theorem distinct_normalize {v : Value} (h : ∀ c ∈ v.children, c.Distinct) : v.normalize.Distinct :=
  .intro v.keys_normalize fun c hc => h c (v.children_normalize_subset hc)

end Value

/-- Everything inside what is held is distinct throughout; the value itself may
repeat keys. -/
def Held.DistinctInside (h : Held) : Prop := ∀ c ∈ h.value.children, c.Distinct

theorem Taken.distinct {n : Nat} {v : Value} (h : Taken Held.DistinctInside n v) : v.Distinct := by
  obtain ⟨h, hinside, -, rfl⟩ := h
  exact Value.distinct_normalize hinside

namespace Machine

theorem distinctInside_closed : Closed Held.DistinctInside where
  make _ _ hv _ c hc := (hv c hc).least Value.hereditary_distinct fun _ => Taken.distinct
  change _ _ _ hinside _ hv c hc := by
    apply (hv c hc).least Value.hereditary_distinct
    intro u hu
    rcases hu with hu | hu
    · exact hinside u hu
    · exact hu.distinct

/-- Inside what the slots and the memo of a reachable state hold, and in every value
that a load from it gives, no dict and no set has two equal keys at any depth. -/
theorem keys_distinct {data : Bytes} {m : Machine} (hm : Reachable data m) :
    m.Holds Held.DistinctInside ∧ ∀ r v, (m.load r).1 = .ok v → v.Distinct := by
  constructor
  · exact hm.holds distinctInside_closed
  · intro r v h
    obtain ⟨g, hg, rfl⟩ := hm.load_holds distinctInside_closed h
    exact Value.distinct_normalize hg

/-- A memoized dict is given both zeros as keys and put twice into a tuple. -/
theorem keys_distinct_zeros :
    ((ofBytes [0x7d, 0x71, 0x00, 0x28, 0x47, 0, 0, 0, 0, 0, 0, 0, 0, 0x4b, 0x01,
        0x47, 0x80, 0, 0, 0, 0, 0, 0, 0, 0x4b, 0x02, 0x75, 0x68, 0x00, 0x86, 0x2e]).load .empty).1 =
        .ok (.tuple [.dict [(.float ⟨0⟩, .int 2)], .dict [(.float ⟨0⟩, .int 2)]]) ∧
      (Value.tuple [.dict [(.float ⟨0⟩, .int 2)], .dict [(.float ⟨0⟩, .int 2)]]).Distinct := by
  have hload : ((ofBytes [0x7d, 0x71, 0x00, 0x28, 0x47, 0, 0, 0, 0, 0, 0, 0, 0, 0x4b, 0x01,
      0x47, 0x80, 0, 0, 0, 0, 0, 0, 0, 0x4b, 0x02, 0x75, 0x68, 0x00, 0x86, 0x2e]).load .empty).1 =
      .ok (.tuple [.dict [(.float ⟨0⟩, .int 2)], .dict [(.float ⟨0⟩, .int 2)]]) := by cbv
  exact ⟨hload, (keys_distinct .ofBytes).2 .empty _ hload⟩

end Machine

end PickledModel
