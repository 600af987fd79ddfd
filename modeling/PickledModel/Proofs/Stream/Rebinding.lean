import Mathlib
import PickledModel.Proofs.Stream.Reachability

/-! What a memo index is bound to and what the slots of a machine stand for. A
slot that refers to the memo stands for what its index is bound to at the time,
so binding an index again changes the slots that already refer to it, and those
alone. -/

set_option autoImplicit false

namespace PickledModel

theorem Value.charge_largestSize (total : Nat) (pending : List Value) :
    ∃ cost, Value.charge Value.largestSize total pending = some cost := by
  induction total, pending using Value.charge.induct Value.largestSize with
  | case1 total => exact ⟨total, by rw [Value.charge]⟩
  | case2 total v pending total' h =>
    have hle := Nat.min_le_right (total + v.shallowSize) Value.largestSize
    omega
  | case3 total v pending total' h ih =>
    obtain ⟨cost, hcost⟩ := ih
    refine ⟨cost, ?_⟩
    rw [Value.charge, if_neg h]
    exact hcost

namespace Machine
open Process

def Resolves (m : Machine) (s : Slot) (v : Value) : Prop :=
  ∃ op allowance h, ((resolve op s).start { m with allowance }).1 = .ok h ∧ h.value = v

theorem start_resolve_memo {op : Opcode} {k : Nat} (m : Machine) :
    (resolve op (.memo k)).start m = match m.memo[k]? with
      | some h => match h.value.footprint? m.allowance with
        | some cost =>
          (.ok { h with value := h.value.normalize }, { m with allowance := m.allowance - cost })
        | none => (.error (.malformed (.cause (.copyLimit m.copyLimit) op m.cursor.position)), m)
      | none => (.error (.malformed (.cause (.unbound k) op m.cursor.position)), m) := by
  rw [resolve, copyMemo]
  simp only [start_bind, start_get]
  cases hk : m.memo[k]? with
  | none => rfl
  | some h =>
    simp only [start_bind, chargeCopy, start_get]
    cases h.value.footprint? m.allowance <;> rfl

theorem resolves_iff {m : Machine} {s : Slot} {v : Value} :
    m.Resolves s v ↔ ∃ h, m.held? s = some h ∧ h.value.normalize = v := by
  constructor
  · rintro ⟨op, allowance, g, hg, rfl⟩
    cases s with
    | owned h =>
      obtain rfl := Except.ok.inj hg
      exact ⟨h, rfl, rfl⟩
    | memo k =>
      rw [start_resolve_memo] at hg
      cases hk : m.memo[k]? with
      | none => simp [hk] at hg
      | some h =>
        simp only [hk] at hg
        cases hf : h.value.footprint? allowance with
        | none => simp [hf] at hg
        | some cost =>
          simp only [hf] at hg
          obtain rfl := Except.ok.inj hg
          exact ⟨h, hk, rfl⟩
  · rintro ⟨h, hs, rfl⟩
    cases s with
    | owned g =>
      obtain rfl := Option.some.inj hs
      exact ⟨.stop, 0, _, rfl, rfl⟩
    | memo k =>
      obtain ⟨cost, hcost⟩ := Value.charge_largestSize 0 [h.value]
      refine ⟨.stop, Value.largestSize, { h with value := h.value.normalize }, ?_, rfl⟩
      have hk : m.memo[k]? = some h := hs
      rw [start_resolve_memo]
      simp only [hk, Value.footprint?, hcost]

theorem resolves_congr {m m' : Machine} {s s' : Slot} (h : m'.held? s' = m.held? s) (v : Value) :
    m'.Resolves s' v ↔ m.Resolves s v := by
  rw [resolves_iff, resolves_iff, h]

def binds? (m : Machine) : Instruction → Option Nat
  | .put k => some k
  | .memoize => some m.memo.size
  | _ => none

theorem getElem?_bound (memo : Memo) (k : Nat) (h : Held) :
    (memo.insert k h)[k]? = some h ∧ ∀ j, j ≠ k → (memo.insert k h)[j]? = memo[j]? := by
  constructor
  · exact Std.TreeMap.getElem?_insert_self
  · intro j hj
    rw [Std.TreeMap.getElem?_insert, if_neg]
    simpa using hj.symm

theorem start_put_owned {op : Opcode} {k : Nat} {m : Machine} {h : Held} {rest : List Slot}
    (hs : m.stack = .owned h :: rest) :
    (put op k).start m =
      (.ok (), { m with stack := .memo k :: rest, memo := m.memo.insert k h }) := by
  rw [put, start_bind, start_popSlot op _ _ m hs]
  rfl

theorem start_put_nil {op : Opcode} {k : Nat} {m : Machine} (hs : m.stack = []) :
    (put op k).start m = (.error (.malformed (.cause .underflow op m.cursor.position)), m) := by
  rw [put, start_bind, popSlot, start_bind]
  simp only [start_get, hs, start_fail]

/-- Binding an index moves what the uppermost slot stood for into the memo, and
touches no other entry and no other slot. -/
theorem put_ok {op : Opcode} {k : Nat} {m m' : Machine} (h : (put op k).start m = (.ok (), m')) :
    ∃ top rest, m.stack = top :: rest ∧ m'.stack = .memo k :: rest ∧
      m'.suspended = m.suspended ∧ m'.memo[k]? = m.held? top ∧
      ∀ j, j ≠ k → m'.memo[j]? = m.memo[j]? := by
  cases hs : m.stack with
  | nil =>
    rw [start_put_nil hs] at h
    cases h
  | cons top rest =>
    refine ⟨top, rest, rfl, ?_⟩
    cases top with
    | owned g =>
      rw [start_put_owned hs] at h
      cases h
      exact ⟨rfl, rfl, getElem?_bound m.memo k g⟩
    | memo source =>
      rw [put, start_bind, start_popSlot op _ _ m hs] at h
      by_cases hk : source = k
      · subst hk
        simp only [if_true] at h
        cases h
        exact ⟨rfl, rfl, rfl, fun _ _ => rfl⟩
      · simp only [hk, if_false, start_bind, copyMemo, start_get] at h
        cases hm : m.memo[source]? with
        | none =>
          simp only [hm] at h
          cases h
        | some g =>
          simp only [hm, start_bind, chargeCopy, start_get] at h
          cases hf : g.value.footprint? m.allowance with
          | none =>
            simp only [hf] at h
            cases h
          | some cost =>
            simp only [hf] at h
            cases h
            have hbound := getElem?_bound m.memo k g
            exact ⟨rfl, rfl, hbound.1.trans hm.symm, hbound.2⟩

theorem step_binds_ok {r : Registry} {op : Opcode} {i : Instruction} {k : Nat} {m m' : Machine}
    (hi : m.binds? i = some k) (h : (step r op i).start m = (.ok (), m')) :
    (put op k).start m = (.ok (), m') := by
  cases i with
  | put j =>
    obtain rfl := Option.some.inj hi
    exact h
  | memoize =>
    obtain rfl := Option.some.inj hi
    rw [step, start_bind, start_get] at h
    by_cases hsize : m.memo.size < 2 ^ 32
    · simpa only [hsize, if_true] using h
    · simp only [hsize] at h
      cases h
  | _ => cases hi

/-- After an index is bound it stands for what the uppermost slot stood for. All
other slots stand for what they did, unless they refer to that same index and
it was bound to something else. -/
theorem binding_frame {r : Registry} {op : Opcode} {i : Instruction} {k : Nat} {m m' : Machine}
    (hi : m.binds? i = some k) (h : (step r op i).start m = (.ok (), m')) :
    ∃ top rest, m.stack = top :: rest ∧ m'.stack = .memo k :: rest ∧
      m'.suspended = m.suspended ∧
      (∀ v, m'.Resolves (.memo k) v ↔ m.Resolves top v) ∧
      (∀ s, s ≠ .memo k → ∀ v, m'.Resolves s v ↔ m.Resolves s v) ∧
      ((∀ s ∈ rest ++ m.suspended.flatten, ∀ v, m'.Resolves s v ↔ m.Resolves s v) ↔
        (.memo k ∈ rest ++ m.suspended.flatten →
          ∀ v, m.Resolves (.memo k) v ↔ m.Resolves top v)) := by
  obtain ⟨top, rest, hs, hs', hsuspended, hk, hother⟩ := put_ok (step_binds_ok hi h)
  have hbound : ∀ v, m'.Resolves (.memo k) v ↔ m.Resolves top v := resolves_congr hk
  have hframe : ∀ s, s ≠ .memo k → ∀ v, m'.Resolves s v ↔ m.Resolves s v := by
    intro s hne
    apply resolves_congr
    cases s with
    | owned g => rfl
    | memo j =>
      apply hother
      rintro rfl
      exact hne rfl
  refine ⟨top, rest, hs, hs', hsuspended, hbound, hframe, ?_⟩
  constructor
  · intro hall hmem v
    exact (hall _ hmem v).symm.trans (hbound v)
  · intro hsame s hmem v
    by_cases hne : s = .memo k
    · subst hne
      exact (hbound v).trans (hsame hmem v).symm
    · exact hframe s hne v

/-- `None` is bound to the index of a list while a reference to it is on the stack. -/
theorem binding_frame_bound_twice :
    ∃ m m', m = (run .empty 3 (ofBytes [0x5d, 0x71, 0x00, 0x4e])).2 ∧
      m.binds? (.put 0) = some 0 ∧ (step .empty .binPut (.put 0)).start m = (.ok (), m') ∧
      m'.Resolves (.memo 0) .none := by
  refine ⟨_, _, rfl, rfl, rfl, ?_⟩
  have hstack : (run .empty 3 (ofBytes [0x5d, 0x71, 0x00, 0x4e])).2.stack =
      [.owned ⟨.none, 0⟩, .memo 0] := by cbv
  have hok : ((step .empty .binPut (.put 0)).start
      (run .empty 3 (ofBytes [0x5d, 0x71, 0x00, 0x4e])).2).1 = .ok () := by cbv
  obtain ⟨top, rest, hs, -, -, hbound, -⟩ :=
    @binding_frame .empty .binPut (.put 0) _ _ _ rfl (Prod.ext hok rfl)
  rw [hstack] at hs
  cases hs
  exact (hbound _).mpr (resolves_iff.mpr ⟨⟨.none, 0⟩, rfl, rfl⟩)

/-- A slot that lies below the top may come to stand for another value. -/
theorem rebinding_changes_lying_slot :
    ∃ m m', Reachable [0x5d, 0x71, 0x00, 0x4e] m ∧
      (step .empty .binPut (.put 0)).start m = (.ok (), m') ∧
      m.stack.drop 1 = [.memo 0] ∧ m'.stack.drop 1 = [.memo 0] ∧
      m.Resolves (.memo 0) (.list []) ∧ ¬ m'.Resolves (.memo 0) (.list []) := by
  have hstack : (run .empty 3 (ofBytes [0x5d, 0x71, 0x00, 0x4e])).2.stack =
      [.owned ⟨.none, 0⟩, .memo 0] := by cbv
  have hlist : (run .empty 3 (ofBytes [0x5d, 0x71, 0x00, 0x4e])).2.memo[0]? =
      some ⟨.list [], 1⟩ := by cbv
  refine ⟨_, _, Reachable.ofBytes.run .empty 3, start_put_owned hstack, ?_, rfl, ?_, ?_⟩
  · rw [hstack]
    rfl
  · exact resolves_iff.mpr ⟨_, hlist, rfl⟩
  · rw [resolves_iff]
    rintro ⟨h, hh, hv⟩
    have hnone := (getElem?_bound _ 0 ⟨.none, 0⟩).1.symm.trans hh
    obtain rfl := Option.some.inj hnone
    cases hv

end Machine

end PickledModel
