import PickledModel.Proofs.Process.Outcome
import PickledModel.Proofs.Stream.Rebinding

/-! What the parts of an instruction did if they succeeded. Taking a value out
of a slot changes nothing but the allowance. -/

set_option autoImplicit false

namespace PickledModel.Machine
open Process

variable {op : Opcode} {m m' : Machine}

theorem resolve_ok {s : Slot} {h : Held} (hr : (resolve op s).start m = (.ok h, m')) :
    ∃ g allowance, m.held? s = some g ∧ h = { g with value := g.value.normalize } ∧
      m' = { m with allowance } := by
  cases s with
  | owned g =>
    cases hr
    exact ⟨g, m.allowance, rfl, rfl, rfl⟩
  | memo k =>
    rw [start_resolve_memo] at hr
    cases hk : m.memo[k]? with
    | none =>
      simp only [hk] at hr
      cases hr
    | some g =>
      simp only [hk] at hr
      cases hcost : g.value.footprint? m.allowance with
      | none =>
        simp only [hcost] at hr
        cases hr
      | some cost =>
        simp only [hcost] at hr
        cases hr
        exact ⟨g, _, hk, rfl, rfl⟩

theorem popSlot_ok {s : Slot} (h : (popSlot op).start m = (.ok s, m')) :
    ∃ stack, m.stack = s :: stack ∧ m' = { m with stack } := by
  cases hs : m.stack with
  | nil =>
    rw [popSlot, start_bind] at h
    simp only [start_get, hs] at h
    cases h
  | cons t stack =>
    rw [start_popSlot op t stack m hs] at h
    cases h
    exact ⟨stack, rfl, rfl⟩

theorem topSlot_ok {s : Slot} (h : (topSlot op).start m = (.ok s, m')) :
    m' = m ∧ ¬ m.stack.isEmpty = true := by
  rw [topSlot, start_bind, start_get] at h
  cases hs : m.stack with
  | nil =>
    simp only [hs] at h
    cases h
  | cons t stack =>
    simp only [hs] at h
    cases h
    exact ⟨rfl, by simp⟩

theorem popValue_ok {h : Held} (hp : (popValue op).start m = (.ok h, m')) :
    ∃ s stack, m.stack = s :: stack ∧ (resolve op s).start { m with stack } = (.ok h, m') := by
  obtain ⟨s, m₁, hpop, hr⟩ := start_bind_ok hp
  obtain ⟨stack, hs, rfl⟩ := popSlot_ok hpop
  exact ⟨s, stack, hs, hr⟩

theorem popMark_ok {slots : List Slot} (h : (popMark op).start m = (.ok slots, m')) :
    ∃ stack suspended, m.suspended = stack :: suspended ∧ slots = m.stack.reverse ∧
      m' = { m with stack, suspended } := by
  cases hs : m.suspended with
  | nil =>
    rw [popMark, start_bind] at h
    simp only [start_get, hs] at h
    cases h
  | cons stack suspended =>
    rw [start_popMark op stack suspended m hs] at h
    cases h
    exact ⟨stack, suspended, rfl, rfl, rfl⟩

theorem popValues_ok {n : Nat} {g : Gathered} (h : (popValues op n).start m = (.ok g, m')) :
    ¬ (m.stack.take n).length < n ∧
      (resolveAll op (m.stack.take n).reverse).start { m with stack := m.stack.drop n } =
        (.ok g, m') := by
  rw [popValues, start_bind, start_get] at h
  by_cases hn : (m.stack.take n).length < n
  · simp only [hn, if_true] at h
    cases h
  · simp only [hn, if_false] at h
    exact ⟨hn, h⟩

theorem push_ok {n : Nat} {v : Value} (h : (push op n v).start m = (.ok (), m')) :
    m' = { m with stack := .owned ⟨v, levelsOver n v⟩ :: m.stack } := by
  by_cases hn : levelsOver n v ≤ maxNesting
  · rw [start_push m hn] at h
    cases h
    rfl
  · rw [push, start_bind, start_checkDepth, if_pos (Nat.not_le.mp hn)] at h
    cases h

theorem pushMemo_ok {k : Nat} (h : (pushMemo op k).start m = (.ok (), m')) :
    m.memo[k]?.isSome ∧ m' = { m with stack := .memo k :: m.stack } := by
  rw [pushMemo, start_bind, start_get] at h
  by_cases hk : m.memo.contains k
  · simp only [hk, if_true] at h
    cases h
    rw [Std.TreeMap.contains_eq_isSome_getElem?] at hk
    exact ⟨hk, rfl⟩
  · simp only [hk] at h
    cases h

theorem pairs_ok {items : List Value} {entries : List (Value × Value)}
    (h : (pairs op items).start m = (.ok entries, m')) :
    pairsOnto? [] items = some entries ∧ m' = m := by
  unfold pairs at h
  cases hp : pairsOnto? [] items with
  | none =>
    simp only [hp] at h
    cases h
  | some found =>
    simp only [hp] at h
    cases h
    exact ⟨rfl, rfl⟩

theorem arguments_ok {v : Value} {items : List Value}
    (h : (arguments op v).start m = (.ok items, m')) : v.items? = some items ∧ m' = m := by
  unfold arguments at h
  cases hi : v.items? with
  | none =>
    simp only [hi] at h
    cases h
  | some found =>
    simp only [hi] at h
    cases h
    exact ⟨rfl, rfl⟩

theorem target_ok {n : Nat} {v : Value} (h : (target op n).start m = (.ok v, m')) :
    n + 1 ≤ maxNesting ∧ m' = m.deepened n ∧ ∃ g, m.top? = some g ∧ v = g.value := by
  by_cases hn : n + 1 ≤ maxNesting
  · rcases start_target op m hn with ⟨g, ht, he⟩ | ⟨-, e, he⟩
    · rw [he] at h
      cases h
      rw [top?_mapTop, Option.map_eq_some_iff] at ht
      obtain ⟨g', hg', rfl⟩ := ht
      exact ⟨hn, rfl, g', hg', rfl⟩
    · rw [he] at h
      cases h
  · rw [target, start_bind, start_deepenTop, if_pos (Nat.not_le.mp hn)] at h
    cases h

theorem call_ok {r : Registry} {n : Nat} {callee : Value} {args : List Value}
    (h : (call r op n callee args).start m = (.ok (), m')) :
    ∃ name o, callee = .global name ∧ Call.run r name args = .ok o ∧
      m' = { m with
        reports := m.reports ++ o.unresolved.toList
        stack := .owned ⟨o.value, levelsOver n o.value⟩ :: m.stack } := by
  unfold call at h
  split at h
  · next name =>
    obtain ⟨o, m₁, ho, hrest⟩ := start_bind_ok h
    obtain ⟨hrun, rfl⟩ := start_ofExcept_ok ho
    obtain ⟨u, m₂, hreport, hpush⟩ := start_bind_ok hrest
    rw [start_modify] at hreport
    cases hreport
    exact ⟨name, o, rfl, hrun, push_ok hpush⟩
  · cases h

theorem buildTop_ok {state : Held} (h : (buildTop op state).start m = (.ok (), m')) :
    state.depth + 1 ≤ maxNesting ∧ ∃ g typeName body body' c,
      m.top? = some g ∧ g.value = .object typeName body ∧
      (Body.restore typeName state.value).start (body, m.cursor) = (.ok (), (body', c)) ∧
      m' = mapTop (fun h => { h with value := .object typeName body' })
        { m.deepened state.depth with cursor := c } := by
  obtain ⟨v, m₁, htarget, hbuild⟩ := start_bind_ok h
  obtain ⟨hdepth, rfl, g, hg, rfl⟩ := target_ok htarget
  refine ⟨hdepth, g, ?_⟩
  split at hbuild
  · next typeName body heq =>
    simp only [start_bind, start_get, cursor_mapTop] at hbuild
    rcases hrestore : (Body.restore typeName state.value).start (body, m.cursor) with ⟨r, body', c⟩
    simp only [hrestore, start_set] at hbuild
    cases r with
    | error e => cases hbuild
    | ok u =>
      cases hbuild
      exact ⟨typeName, body, body', c, hg, heq, hrestore, rfl⟩
  · cases hbuild

theorem finish_ok {v : Value} (h : finish.start m = (.ok v, m')) :
    ∃ s g, m.suspended = [] ∧ m.stack = [s] ∧
      (resolve .stop s).start { m with stack := [] } = (.ok g, m') ∧ v = g.value := by
  rw [finish, start_bind, start_get] at h
  cases hsuspended : m.suspended with
  | cons segment suspended =>
    simp only [hsuspended] at h
    cases h
  | nil =>
    simp only [hsuspended, List.isEmpty_nil, Bool.not_true, Bool.false_eq_true, if_false] at h
    obtain ⟨u, m₁, hset, hresult⟩ := start_bind_ok h
    rw [start_set] at hset
    cases hset
    split at hresult
    · next s hs =>
      obtain ⟨g, hg, rfl⟩ := start_map_ok hresult
      exact ⟨s, g, rfl, hs, hsuspended ▸ hg, rfl⟩
    · cases hresult

end PickledModel.Machine
