import PickledModel.Proofs.Stream.Copying
import PickledModel.Proofs.Value.Worklist
import PickledModel.Proofs.Value.Worth

/-! The charges of copies. A doubled slot, a memoized value that is bound to another
index, and a value taken out of a reference are copied; each is charged its
footprint, which is also the footprint of the copy. -/

set_option autoImplicit false

namespace PickledModel.Machine
open Process

/-- Between two machines `v` was charged its footprint, and so would be `copy`. -/
structure Charged (m m' : Machine) (v copy : Value) : Prop where
  paid : ∃ cost, v.footprint? m.allowance = some cost ∧ m'.allowance + cost = m.allowance
  alike : ∀ limit, copy.footprint? limit = v.footprint? limit

variable {op : Opcode} {m m' : Machine}

theorem chargeCopy_ok {v : Value} (h : (chargeCopy op v).start m = (.ok (), m')) :
    Charged m m' v v ∧ ∃ allowance, m' = { m with allowance } := by
  rw [start_chargeCopy] at h
  by_cases hv : v.cost ≤ m.allowance
  · rw [if_pos hv] at h
    cases h
    exact ⟨⟨⟨v.cost, Value.footprint?_eq_some_iff.mpr ⟨rfl, hv⟩, Nat.sub_add_cancel hv⟩,
      fun _ => rfl⟩, _, rfl⟩
  · rw [if_neg hv] at h
    cases h

theorem copyMemo_ok {k : Nat} {g : Held} (h : (copyMemo op k).start m = (.ok g, m')) :
    m.memo[k]? = some g ∧ Charged m m' g.value g.value ∧
      ∃ allowance, m' = { m with allowance } := by
  rw [copyMemo, start_bind, start_get] at h
  dsimp only at h
  cases hk : m.memo[k]? with
  | none =>
    rw [hk] at h
    cases h
  | some held =>
    rw [hk] at h
    obtain ⟨u, m₁, hcharge, hpure⟩ := start_bind_ok h
    cases hpure
    exact ⟨rfl, chargeCopy_ok hcharge⟩

/-- Doubling a slot that owns its value charges it for the second one. -/
theorem dup_charged {h : Held} {stack : List Slot} (hs : m.stack = .owned h :: stack)
    (hd : (dup op).start m = (.ok (), m')) :
    ∃ copy, m'.stack = .owned copy :: .owned h :: stack ∧ Charged m m' h.value copy.value := by
  have htop : (topSlot op).start m = (.ok (.owned h), m) := by
    rw [topSlot, start_bind, start_get]
    simp only [hs, start_pure]
  rw [dup, start_bind, htop] at hd
  obtain ⟨u, m₁, hcharge, hpush⟩ := start_bind_ok hd
  obtain ⟨hcharged, allowance, rfl⟩ := chargeCopy_ok hcharge
  cases hpush
  exact ⟨h, congrArg (Slot.owned h :: ·) hs, hcharged.paid, hcharged.alike⟩

/-- Binding what a reference stands for to another index charges it for the second binding. -/
theorem put_charged {source k : Nat} {stack : List Slot} (hs : m.stack = .memo source :: stack)
    (hk : source ≠ k) (hp : (put op k).start m = (.ok (), m')) :
    ∃ h copy, m.memo[source]? = some h ∧ m'.memo[source]? = some h ∧ m'.memo[k]? = some copy ∧
      Charged m m' h.value copy.value := by
  rw [put, start_bind, start_popSlot op _ _ m hs] at hp
  simp only [hk, if_false] at hp
  obtain ⟨copy, m₁, hcopy, hbind⟩ := start_bind_ok hp
  obtain ⟨hsource, hcharged, allowance, rfl⟩ := copyMemo_ok hcopy
  cases hbind
  have hbound := getElem?_bound m.memo k copy
  refine ⟨copy, copy, hsource, ?_, hbound.1, hcharged.paid, hcharged.alike⟩
  exact (hbound.2 source hk).trans hsource

/-- Taking a value out of a reference charges it for the copy, before the keys of the copy are
made distinct. -/
theorem resolve_charged {k : Nat} {g : Held} (hr : (resolve op (.memo k)).start m = (.ok g, m')) :
    ∃ h copy, m.memo[k]? = some h ∧ Charged m m' h.value copy ∧ g.value = copy.normalize := by
  obtain ⟨held, m₁, hcopy, hpure⟩ := start_bind_ok hr
  obtain ⟨hk, hcharged, -⟩ := copyMemo_ok hcopy
  cases hpure
  exact ⟨held, held.value, hk, hcharged, rfl⟩

/-- Sizes are sums over a value and its children, and below the largest word every traversal of
a value ends with its size, or with nothing if that passes the limit; no traversal goes on for
ever or gets stuck. What is copied is charged its footprint, and so would be its copy; a value
that is then given distinct keys has no larger one. -/
theorem footprints_are_sizes :
    (∀ v : Value, v.size = v.shallowSize + (v.children.map Value.size).sum) ∧
      (∀ v : Value, v.size < 2 ^ 64 → ∀ limit,
        v.footprint? limit = (if v.size ≤ limit then some v.size else none) ∧
          ∀ o, (∃ t, Value.Tally.Steps limit v.tally t ∧ t.Ends limit o) ↔
            o = if v.size ≤ limit then some v.size else none) ∧
      (∀ limit, (WellFounded fun t' t => Value.Tally.Step limit t t') ∧
        ∀ t, (∃ t', Value.Tally.Step limit t t') ∨ ∃ o, Value.Tally.Ends limit t o) ∧
      (∀ op m m' h stack, m.stack = .owned h :: stack → (dup op).start m = (.ok (), m') →
        ∃ copy, m'.stack = .owned copy :: .owned h :: stack ∧ Charged m m' h.value copy.value) ∧
      (∀ op m m' source k stack, m.stack = .memo source :: stack → source ≠ k →
        (put op k).start m = (.ok (), m') →
        ∃ h copy, m.memo[source]? = some h ∧ m'.memo[source]? = some h ∧
          m'.memo[k]? = some copy ∧ Charged m m' h.value copy.value) ∧
      ∀ op m m' k g, (resolve op (.memo k)).start m = (.ok g, m') →
        ∃ h copy, m.memo[k]? = some h ∧ Charged m m' h.value copy ∧ g.value = copy.normalize ∧
          g.value.size ≤ copy.size := by
  refine ⟨Value.size_eq, fun v hv limit => ?_, fun limit =>
    ⟨Value.Tally.step_wellFounded limit, Value.Tally.exists_step_or_ends limit⟩,
    fun op m m' h stack => dup_charged, fun op m m' source k stack => put_charged,
    fun op m m' k g hr => ?_⟩
  · have hfootprint := v.footprint?_eq limit
    rw [Value.cost_eq_size hv] at hfootprint
    refine ⟨hfootprint, fun o => ?_⟩
    rw [← hfootprint]
    exact Value.footprint?_iff_ends
  · obtain ⟨h, copy, hk, hcharged, hg⟩ := resolve_charged hr
    refine ⟨h, copy, hk, hcharged, hg, ?_⟩
    rw [hg]
    exact copy.size_normalize_le

namespace TwoItems

def pair : Value := .tuple [.none, .str "ab"]

theorem size_pair : pair.size = 98 := by
  have hchildren : pair.children = [.none, .str "ab"] := rfl
  have hnone : Value.none.children = [] := rfl
  have hstr : (Value.str "ab").children = [] := rfl
  simp only [Value.size, Value.total_eq, hchildren, hnone, hstr, List.map_cons, List.map_nil,
    List.sum_cons, List.sum_nil]
  decide

def owning : Machine := { ofBytes [] with stack := [.owned ⟨pair, 1⟩] }

def referring : Machine :=
  { ofBytes [] with stack := [.memo 0], memo := (∅ : Memo).insert 0 ⟨pair, 1⟩ }

end TwoItems

open TwoItems in
theorem footprints_are_sizes_twoItems :
    pair.footprint? 98 = some 98 ∧ pair.footprint? 97 = none ∧
      (∀ t o, Value.Tally.Steps 97 pair.tally t → t.Ends 97 o → o = none) ∧
      (∃ m', ∃ copy : Held, (dup .dup).start owning = (.ok (), m') ∧
        Charged owning m' pair copy.value) ∧
      (∃ m', ∃ h copy : Held, (put .binPut 1).start referring = (.ok (), m') ∧
        Charged referring m' h.value copy.value) ∧
      ∃ m' copy, ∃ h : Held, (resolve .tuple1 (.memo 0)).start referring = (.ok ⟨pair, 1⟩, m') ∧
        Charged referring m' h.value copy ∧ pair.size ≤ copy.size := by
  obtain ⟨-, hsizes, -, hdup, hput, hresolve⟩ := footprints_are_sizes
  have hword : pair.size < 2 ^ 64 := by
    rw [size_pair]
    decide
  have hwithin := (hsizes pair hword 98).1
  obtain ⟨hpast, hends⟩ := hsizes pair hword 97
  rw [size_pair] at hwithin hpast hends
  have hdoubled : ((dup .dup).start owning).1 = .ok () := by cbv
  have hbound : ((put .binPut 1).start referring).1 = .ok () := by cbv
  have hresolved : ((resolve .tuple1 (.memo 0)).start referring).1 = .ok ⟨pair, 1⟩ := by cbv
  obtain ⟨c, -, hc⟩ := hdup .dup owning _ ⟨pair, 1⟩ [] rfl (Prod.ext hdoubled rfl)
  obtain ⟨h, d, -, -, -, hd⟩ :=
    hput .binPut referring _ 0 1 [] rfl (by decide) (Prod.ext hbound rfl)
  obtain ⟨h', e, -, he, -, hle⟩ := hresolve .tuple1 referring _ 0 _ (Prod.ext hresolved rfl)
  exact ⟨hwithin, hpast, fun t o hs hend => (hends o).mp ⟨t, hs, hend⟩,
    ⟨_, c, Prod.ext hdoubled rfl, hc⟩, ⟨_, h, d, Prod.ext hbound rfl, hd⟩,
    ⟨_, e, h', Prod.ext hresolved rfl, he, hle⟩⟩

end PickledModel.Machine
