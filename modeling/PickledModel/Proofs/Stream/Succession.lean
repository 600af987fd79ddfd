import PickledModel.Proofs.Stream.CopyBudget
import PickledModel.Proofs.Stream.Transfer

/-! Two streams in one buffer. A load that succeeds leaves nothing on the stack, so
the next one starts as from a fresh machine, further on in the buffer, with less of an
allowance and with the memo entries of the first. It can look up only what it has
bound itself; so both loads give what they give apart from each other. -/

set_option autoImplicit false

namespace PickledModel.Machine
open Process

variable {r r₁ r₂ : Registry} {d₁ d₂ : Bytes} {v v₁ v₂ : Value} {m t t₁ t₂ : Machine}

theorem finish_ok_empty (h : finish.start m = (.ok v, t)) : t.stack = [] ∧ t.suspended = [] := by
  obtain ⟨s, g, hsuspended, -, hresolve, -⟩ := finish_ok h
  obtain ⟨-, allowance, -, -, rfl⟩ := resolve_ok hresolve
  exact ⟨rfl, hsuspended⟩

theorem run_ok_empty {n : Nat} (h : run r n m = (.ok v, t)) : t.stack = [] ∧ t.suspended = [] := by
  induction n generalizing m with
  | zero => cases h
  | succ n ih =>
    rw [run] at h
    rcases hnext : (next r).start m with ⟨e | w, u⟩ <;> rw [hnext] at h
    · cases h
    obtain ⟨op, i, c, -, ⟨w', -, rfl, hfinish⟩ | ⟨-, rfl, -⟩⟩ := next_ok hnext
    · cases h
      exact finish_ok_empty hfinish
    · exact ih h

/-- On a machine of its own, a stream takes all its bytes and what its copies cost. -/
theorem Paid.load {used : Bytes} {spent : Nat} (h : Paid used spent (ofBytes d₁) t₁)
    (hload : (ofBytes d₁).load r = (.ok v, t₁)) (hend : t₁.cursor.rest = []) :
    d₁ = used ∧ costs ((ofBytes d₁).copies r) = spent := by
  have hrest := h.bytes.rest
  have hcopies := h.copies
  have hspends := (load_spends r (ofBytes d₁)).allowance
  rw [hload] at hspends
  rw [hend, List.append_nil] at hrest
  refine ⟨hrest, ?_⟩
  rw [Machine.copies]
  dsimp only at hspends
  omega

/-- The machine between two streams: fresh but for its place, for the memo and the
reports of the first load, and for what that load has spent on copies. -/
def between (d₁ d₂ : Bytes) (t₁ : Machine) (spent : Nat) : Machine :=
  { ofBytes (d₁ ++ d₂) with
    cursor := ⟨d₁.length, d₂⟩
    memo := t₁.memo
    allowance := copyLimitFor (d₁ ++ d₂).length - spent
    reports := t₁.reports }

theorem Overlaid.eq_between {spent : Nat} (hm : Overlaid .same t₁ m)
    (hp : Paid d₁ spent (ofBytes (d₁ ++ d₂)) m) (hempty : t₁.stack = [] ∧ t₁.suspended = []) :
    m = between d₁ d₂ t₁ spent := by
  obtain ⟨⟨position, rest⟩, stack, suspended, memo, limit, allowance, reports⟩ := m
  obtain rfl : d₂ = rest := List.append_cancel_left hp.bytes.rest
  have hposition : position = 0 + d₁.length := hp.bytes.position
  have hcopies : copyLimitFor (d₁ ++ d₂).length = spent + allowance := hp.copies
  have hlimit : limit = copyLimitFor (d₁ ++ d₂).length := hp.limit
  have hstack : stack = [] := hm.stack.trans hempty.1
  have hsuspended : suspended = [] := hm.suspended.trans hempty.2
  have hmemo : memo = t₁.memo := hm.memo
  have hreports : reports = t₁.reports := hm.reports
  have hallowance : copyLimitFor (d₁ ++ d₂).length - spent = allowance := by omega
  rw [between, hallowance, hposition, Nat.zero_add, hlimit, hstack, hsuspended, hmemo, hreports]
  rfl

theorem load_first (h₁ : (ofBytes d₁).load r₁ = (.ok v₁, t₁)) (hend₁ : t₁.cursor.rest = [])
    (hcopies : costs ((ofBytes d₁).copies r₁) ≤ copyLimitFor (d₁ ++ d₂).length) :
    (ofBytes (d₁ ++ d₂)).load r₁ =
      (.ok v₁, between d₁ d₂ t₁ (costs ((ofBytes d₁).copies r₁))) := by
  have hlength : d₁.length ≤ (d₁ ++ d₂).length := by simp
  obtain ⟨used, spent, hpaid, hthere⟩ := run_carried hlength (.inl Overlay.same_counts) h₁
  obtain ⟨rfl, rfl⟩ := hpaid.load h₁ hend₁
  obtain ⟨m, hload, hm, hp⟩ := hthere (ofBytes (d₁ ++ d₂)) ⟨rfl, rfl, rfl, rfl⟩
    ⟨List.prefix_append d₁ d₂, hcopies⟩
  rw [← hm.eq_between hp (run_ok_empty h₁)]
  exact hload

/-- A stream that lets no memo index be chosen for it loads alike wherever a machine
with an empty stack comes to it. -/
theorem load_alike (h : (ofBytes d₂).load r₂ = (.ok v₂, t₂)) (hend : t₂.cursor.rest = [])
    (hmemo : (ofBytes d₂).neverMemoizes r₂ d₂.length = true) (hstack : m.stack = [])
    (hsuspended : m.suspended = []) (hbytes : d₂ <+: m.cursor.rest)
    (hcopies : costs ((ofBytes d₂).copies r₂) ≤ m.allowance) :
    ∃ t, m.load r₂ = (.ok v₂, t) ∧ t.reports = t₂.reports ∧
      Paid d₂ (costs ((ofBytes d₂).copies r₂)) m t := by
  obtain ⟨used, spent, hpaid, hthere⟩ :=
    run_carried (o := .more) hbytes.length_le (.inr hmemo) h
  obtain ⟨rfl, rfl⟩ := hpaid.load h hend
  have hover : Overlaid .more (ofBytes d₂) { m with reports := [] } := by
    refine ⟨hstack, hsuspended, fun k g hk => ?_, rfl⟩
    exact absurd hk (by simp [ofBytes])
  obtain ⟨t, hload, ht, hp⟩ := hthere _ hover ⟨hbytes, hcopies⟩
  exact ⟨t, hload, ht.reports, hp.bytes, hp.copies, hp.limit⟩

/-- Two streams that load in full, one after the other in one buffer, load as they do
apart, with the same diagnostics, if the second one lets no memo index be chosen for
it and the copies of both are within the limit of the buffer. Between the loads the
machine is fresh but for its place, its allowance and its memo; of that memo the second
load looks up nothing, as on a machine of its own it has only found what it bound. -/
theorem loads_in_succession (h₁ : (ofBytes d₁).load r₁ = (.ok v₁, t₁))
    (hend₁ : t₁.cursor.rest = []) (h₂ : (ofBytes d₂).load r₂ = (.ok v₂, t₂))
    (hend₂ : t₂.cursor.rest = []) (hmemo : (ofBytes d₂).neverMemoizes r₂ d₂.length = true)
    (hcopies : costs ((ofBytes d₁).copies r₁) + costs ((ofBytes d₂).copies r₂) ≤
      copyLimitFor (d₁ ++ d₂).length) :
    ∃ m₁ m₂, (ofBytes (d₁ ++ d₂)).load r₁ = (.ok v₁, m₁) ∧ m₁.load r₂ = (.ok v₂, m₂) ∧
      m₁.diagnostics = t₁.diagnostics ∧ m₂.diagnostics = t₂.diagnostics ∧
      m₁ = between d₁ d₂ t₁ (costs ((ofBytes d₁).copies r₁)) ∧
      m₂.cursor = ⟨d₁.length + d₂.length, []⟩ ∧
      m₂.allowance + costs ((ofBytes d₁).copies r₁) + costs ((ofBytes d₂).copies r₂) =
        copyLimitFor (d₁ ++ d₂).length := by
  generalize hcost₁ : costs ((ofBytes d₁).copies r₁) = cost₁ at hcopies ⊢
  have hfirst := @load_first r₁ d₁ d₂ v₁ t₁ h₁ hend₁ (by omega)
  rw [hcost₁] at hfirst
  have hleft : (between d₁ d₂ t₁ cost₁).allowance = copyLimitFor (d₁ ++ d₂).length - cost₁ := rfl
  obtain ⟨m₂, hsecond, hreports, hpaid⟩ := load_alike h₂ hend₂ hmemo
    (m := between d₁ d₂ t₁ cost₁) rfl rfl (List.prefix_refl d₂) (by omega)
  have hspent := hpaid.copies
  have hcursor : m₂.cursor = ⟨d₁.length + d₂.length, []⟩ := by
    obtain ⟨hrest, hposition⟩ := hpaid.bytes
    have hnil : m₂.cursor.rest = [] := List.self_eq_append_right.mp hrest
    exact congrArg₂ Cursor.mk hposition hnil
  have hdiagnostics : m₂.diagnostics = t₂.diagnostics := by
    rw [diagnostics, diagnostics, hreports]
  exact ⟨_, m₂, hfirst, hsecond, rfl, hdiagnostics, rfl, hcursor, by omega⟩

namespace SharedIndex

/-- A list that holds `None`, bound to the index 0. -/
def first : Bytes := [0x5d, 0x71, 0x00, 0x4e, 0x61, 0x2e]

/-- A dict bound to the same index, twice in a pair. -/
def second : Bytes := [0x7d, 0x71, 0x00, 0x68, 0x00, 0x86, 0x2e]

end SharedIndex

theorem loads_in_succession_shared :
    ∃ m₁ m₂, (ofBytes (SharedIndex.first ++ SharedIndex.second)).load .empty =
        (.ok (.list [.none]), m₁) ∧
      m₁.load .empty = (.ok (.tuple [.dict [], .dict []]), m₂) ∧ m₂.cursor = ⟨13, []⟩ := by
  have h₁ : ((ofBytes SharedIndex.first).load .empty).1 = .ok (.list [.none]) := by cbv
  have h₂ : ((ofBytes SharedIndex.second).load .empty).1 = .ok (.tuple [.dict [], .dict []]) := by
    cbv
  have hcosts₁ : costs ((ofBytes SharedIndex.first).copies .empty) = 64 := by cbv
  have hcosts₂ : costs ((ofBytes SharedIndex.second).copies .empty) = 64 := by cbv
  obtain ⟨m₁, m₂, hfirst, hsecond, -, -, -, hcursor, -⟩ :=
    loads_in_succession (Prod.ext h₁ rfl) (by cbv) (Prod.ext h₂ rfl) (by cbv) (by cbv)
      (by rw [hcosts₁, hcosts₂]; decide)
  exact ⟨m₁, m₂, hfirst, hsecond, hcursor⟩

end PickledModel.Machine
