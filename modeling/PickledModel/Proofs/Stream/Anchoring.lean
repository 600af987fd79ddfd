import PickledModel.Proofs.Object.Refusal
import PickledModel.Proofs.Object.RestoreErrors
import PickledModel.Proofs.Stream.Copying
import PickledModel.Proofs.Stream.Operands

/-! References that stand for something. A slot refers to an index only once a value
has been put there, and no index is ever taken out of the memo. So what is bound stays
bound, and an index that is not bound is reported where one is asked for, and nowhere
else. -/

set_option autoImplicit false

namespace PickledModel

def LoadError.unbound? : LoadError → Option Nat
  | .malformed (.cause (.unbound k) _ _) => some k
  | .malformed (.target (.unbound k) _) => some k
  | _ => none

abbrev LoadError.Other (e : LoadError) : Prop := e.unbound? = none

theorem Call.Refusal.other {e : LoadError} (h : Call.Refusal e) : e.Other := by
  cases h <;> rfl

theorem RestoreFault.other {e : LoadError} (h : RestoreFault e) : e.Other := by
  cases h <;> rfl

/-- Operands that cannot be read have nothing to do with the memo. -/
theorem Fetch.other_composed :
    Fetch.Composed (fun _ => True) (Process.Fails (fun _ => True) LoadError.Other) where
  reads := ⟨fun _ => trivial, fun _ _ => trivial, fun _ => trivial, trivial⟩
  pure := .pure
  bind := .bind
  read _ := .read (fun _ => trivial) (fun _ => rfl) _
  fail _ _ h := by
    apply Process.Fails.get_bind
    intro c _
    apply Process.Fails.throw
    cases h <;> rfl
  protocol _ := .throw rfl
  unsupported _ _ := .throw rfl

def Slot.Bound (memo : Memo) : Slot → Prop
  | .owned _ => True
  | .memo k => k ∈ memo

theorem Slot.Bound.insert {memo : Memo} {s : Slot} (h : s.Bound memo) (k : Nat) (g : Held) :
    s.Bound (memo.insert k g) := by
  cases s with
  | owned _ => trivial
  | memo j => exact Std.TreeMap.mem_insert.mpr (.inr h)

namespace Machine
open Process

structure Anchored (m : Machine) : Prop where
  stack : ∀ s ∈ m.stack, s.Bound m.memo
  suspended : ∀ segment ∈ m.suspended, ∀ s ∈ segment, s.Bound m.memo

theorem held?_isSome_iff {m : Machine} {s : Slot} : (m.held? s).isSome ↔ s.Bound m.memo := by
  cases s with
  | owned h => exact ⟨fun _ => trivial, fun _ => rfl⟩
  | memo k => exact Std.TreeMap.isSome_getElem?_iff_mem

variable {α β : Type} {op : Opcode} {m : Machine}

theorem ofBytes_anchored (data : Bytes) : (ofBytes data).Anchored :=
  ⟨by simp [ofBytes], by simp [ofBytes]⟩

theorem Anchored.top {s : Slot} {stack : List Slot} (hm : m.Anchored) (hs : m.stack = s :: stack) :
    ∃ h, m.top? = some h := by
  have hbound := hm.stack s (by rw [hs]; exact List.mem_cons_self)
  obtain ⟨h, hh⟩ := Option.isSome_iff_exists.mp (held?_isSome_iff.mpr hbound)
  exact ⟨h, by rw [top?, hs, List.head?_cons, Option.bind_some, hh]⟩

theorem Anchored.push {s : Slot} (hm : m.Anchored) (hs : s.Bound m.memo) :
    Anchored { m with stack := s :: m.stack } :=
  ⟨List.forall_mem_cons.mpr ⟨hs, hm.stack⟩, hm.suspended⟩

/-- Binding an index unbinds no other. -/
theorem Anchored.bound (hm : m.Anchored) (k : Nat) (h : Held) :
    Anchored { m with memo := m.memo.insert k h } :=
  ⟨fun s hs => (hm.stack s hs).insert k h, fun g hg s hs => (hm.suspended g hg s hs).insert k h⟩

theorem Anchored.mapTop (hm : m.Anchored) (f : Held → Held) : (m.mapTop f).Anchored := by
  cases hs : m.stack with
  | nil => rwa [mapTop_nil f hs]
  | cons s stack =>
    cases s with
    | owned h =>
      have hstack := hm.stack
      rw [hs, List.forall_mem_cons] at hstack
      rw [mapTop_owned f hs]
      exact ⟨List.forall_mem_cons.mpr hstack, hm.suspended⟩
    | memo k =>
      rcases mapTop_memo f hs with ⟨h, -, hmap⟩ | ⟨-, hmap⟩ <;> rw [hmap]
      · exact hm.bound k (f h)
      · exact hm

structure Draws (m : Machine) (o : Except LoadError α × Machine) : Prop where
  state : ∃ allowance, o.2 = { m with allowance }
  other : ∀ e, o.1 = .error e → e.Other

theorem Draws.bind {p : Process Machine α} {f : α → Process Machine β} (hp : Draws m (p.start m))
    (hf : ∀ a allowance, Draws { m with allowance } ((f a).start { m with allowance })) :
    Draws m ((p >>= f).start m) := by
  obtain ⟨⟨allowance, hstate⟩, hother⟩ := hp
  rw [start_bind]
  rcases hr : p.start m with ⟨e | a, t⟩ <;> rw [hr] at hstate hother <;> cases hstate
  · refine ⟨⟨allowance, rfl⟩, ?_⟩
    rintro _ ⟨⟩
    exact hother e rfl
  · obtain ⟨⟨allowance', hstate⟩, hother⟩ := hf a allowance
    exact ⟨⟨allowance', hstate⟩, hother⟩

theorem Draws.pure (a : α) : Draws m ((Pure.pure a : Process Machine α).start m) := by
  refine ⟨⟨m.allowance, rfl⟩, ?_⟩
  rintro e ⟨⟩

abbrev Safe (o : Except LoadError α × Machine) : Prop :=
  o.2.Anchored ∧ ∀ e, o.1 = .error e → e.Other

theorem Draws.safe {o : Except LoadError α × Machine} (h : Draws m o) (hm : m.Anchored) :
    Safe o := by
  obtain ⟨⟨allowance, hstate⟩, hother⟩ := h
  rw [Safe, hstate]
  exact ⟨⟨hm.stack, hm.suspended⟩, hother⟩

theorem Anchored.safe_error (hm : m.Anchored) {e : LoadError} (h : e.Other) :
    Safe ((.error e : Except LoadError α), m) := by
  refine ⟨hm, ?_⟩
  rintro _ ⟨⟩
  exact h

theorem chargeCopy_draws (v : Value) (m : Machine) : Draws m ((chargeCopy op v).start m) := by
  rw [chargeCopy, start_bind, start_get]
  dsimp only
  cases v.footprint? m.allowance with
  | none =>
    refine ⟨⟨m.allowance, rfl⟩, ?_⟩
    rintro _ ⟨⟩
    rfl
  | some cost =>
    refine ⟨⟨_, rfl⟩, ?_⟩
    rintro e ⟨⟩

/-- A copy of what a bound index stands for. -/
theorem copyMemo_draws {k : Nat} (hk : k ∈ m.memo) : Draws m ((copyMemo op k).start m) := by
  obtain ⟨h, hh⟩ := Option.isSome_iff_exists.mp (Std.TreeMap.isSome_getElem?_iff_mem.mpr hk)
  rw [copyMemo, start_bind, start_get]
  dsimp only
  rw [hh]
  exact (chargeCopy_draws h.value m).bind fun _ _ => .pure h

theorem resolve_draws {s : Slot} (hs : s.Bound m.memo) : Draws m ((resolve op s).start m) := by
  cases s with
  | owned h => exact .pure _
  | memo k => exact (copyMemo_draws hs).bind fun _ _ => .pure _

theorem resolveAll_draws {slots : List Slot} (hs : ∀ s ∈ slots, s.Bound m.memo) :
    Draws m ((resolveAll op slots).start m) := by
  have hmap : ∀ m' : Machine, m'.memo = m.memo → Draws m' ((slots.mapM (resolve op)).start m') := by
    induction slots with
    | nil =>
      intro m' _
      rw [List.mapM_nil]
      exact .pure []
    | cons s slots ih =>
      intro m' hm'
      obtain ⟨hbound, hrest⟩ := List.forall_mem_cons.mp hs
      rw [List.mapM_cons]
      apply (resolve_draws (hm' ▸ hbound)).bind
      intro a allowance
      exact (ih hrest { m' with allowance } hm').bind fun _ _ => .pure _
  exact (hmap m rfl).bind fun _ _ => .pure _

abbrev Sound (p : Process Machine α) : Prop := Fails Anchored LoadError.Other p

theorem fail_sound {c : Cause} (h : ∀ k, c ≠ .unbound k) :
    Sound (fail op c : Process Machine α) := by
  apply Fails.get_bind
  intro m _
  apply Fails.throw
  cases c with
  | unbound k => exact absurd rfl (h k)
  | _ => rfl

/-- A slot that is popped is not a dangling reference. -/
theorem popSlot_sound {f : Slot → Process Machine β}
    (hf : ∀ (s : Slot) (m : Machine), s.Bound m.memo → m.Anchored → Safe ((f s).start m)) :
    Sound (popSlot op >>= f) := by
  intro m hm
  have hstack := hm.stack
  rw [start_bind]
  cases hs : m.stack with
  | nil =>
    rw [start_popSlot_nil op hs]
    exact hm.safe_error rfl
  | cons s stack =>
    rw [hs, List.forall_mem_cons] at hstack
    rw [start_popSlot op s stack m hs]
    exact hf s { m with stack } hstack.1 ⟨hstack.2, hm.suspended⟩

theorem popMark_sound {f : List Slot → Process Machine β}
    (hf : ∀ (slots : List Slot) (m : Machine), (∀ s ∈ slots, s.Bound m.memo) → m.Anchored →
      Safe ((f slots).start m)) :
    Sound (popMark op >>= f) := by
  intro m hm
  have hsuspended := hm.suspended
  rw [start_bind]
  cases hs : m.suspended with
  | nil =>
    rw [start_popMark_nil op hs]
    exact hm.safe_error rfl
  | cons stack suspended =>
    rw [hs, List.forall_mem_cons] at hsuspended
    rw [start_popMark op stack suspended m hs]
    apply hf m.stack.reverse { m with stack, suspended }
    · exact fun s hs => hm.stack s (List.mem_reverse.mp hs)
    · exact ⟨hsuspended.1, hsuspended.2⟩

theorem popValue_sound (op : Opcode) : Sound (popValue op) :=
  popSlot_sound fun _ _ hs hm => (resolve_draws hs).safe hm

theorem popMarked_sound (op : Opcode) : Sound (popMarked op) :=
  popMark_sound fun _ _ hs hm => (resolveAll_draws hs).safe hm

theorem popValues_sound (op : Opcode) (n : Nat) : Sound (popValues op n) := by
  apply Fails.get_bind
  intro m hm
  by_cases h : (m.stack.take n).length < n
  · simp only [h, if_true]
    exact fail_sound (by simp)
  · simp only [h, if_false]
    intro _ _
    rw [start_bind, start_set]
    have hrest : Anchored { m with stack := m.stack.drop n } :=
      ⟨fun s hs => hm.stack s (List.mem_of_mem_drop hs), hm.suspended⟩
    refine (resolveAll_draws ?_).safe hrest
    exact fun s hs => hm.stack s (List.mem_of_mem_take (List.mem_reverse.mp hs))

theorem pushOwned_sound (h : Held) : Sound (pushSlot (.owned h)) :=
  Fails.modify fun _ hm => hm.push trivial

theorem push_sound (op : Opcode) (n : Nat) (v : Value) : Sound (push op n v) := by
  intro m hm
  rw [push, start_bind, start_checkDepth]
  by_cases h : maxNesting < levelsOver n v
  · rw [if_pos h]
    exact hm.safe_error rfl
  · rw [if_neg h]
    exact pushOwned_sound _ m hm

/-- Binding a value to an index and pushing a reference to it. -/
theorem bindTop_sound (k : Nat) (h : Held) : Sound
    ((modify fun m => { m with memo := m.memo.insert k h }) >>= fun _ => pushSlot (.memo k)) := by
  intro m hm
  rw [start_bind, start_modify]
  dsimp only
  rw [pushSlot, start_modify]
  refine ⟨(hm.bound k h).push Std.TreeMap.mem_insert_self, ?_⟩
  rintro e ⟨⟩

/-- The value that is bound to an index comes from a slot that is not dangling. -/
theorem put_sound (op : Opcode) (k : Nat) : Sound (put op k) := by
  apply popSlot_sound
  intro s m hs hm
  cases s with
  | owned h => exact bindTop_sound k h m hm
  | memo source =>
    by_cases hk : source = k
    · subst hk
      simp only [if_true]
      refine ⟨hm.push hs, ?_⟩
      rintro e ⟨⟩
    · simp only [hk, if_false]
      have hcopy : Draws m ((copyMemo op source).start m) := copyMemo_draws hs
      obtain ⟨hanchored, hother⟩ := hcopy.safe hm
      rw [start_bind]
      rcases hr : (copyMemo op source).start m with ⟨e | h, t⟩ <;> rw [hr] at hanchored hother
      · exact hanchored.safe_error (hother e rfl)
      · exact bindTop_sound k h t hanchored

theorem setTarget_sound (v : Value) : Sound (setTarget v) := by
  intro m hm
  refine ⟨hm.mapTop _, ?_⟩
  rintro e ⟨⟩

/-- What is about to be changed is there, or the stack is empty. -/
theorem target_sound (op : Opcode) (n : Nat) : Sound (target op n) := by
  intro m hm
  by_cases h : n + 1 ≤ maxNesting
  · cases hs : m.stack with
    | nil =>
      have hdeepened : m.deepened n = m := mapTop_nil _ hs
      have hstart : (target op n).start m = (.error (.malformed (.target .underflow op)), m) := by
        rw [target, start_bind, start_deepenTop, if_neg (Nat.not_lt.mpr h), hdeepened]
        simp only [start_bind, start_get, hs, start_throw]
      rw [hstart]
      exact hm.safe_error rfl
    | cons s stack =>
      obtain ⟨g, hg⟩ := hm.top hs
      rw [start_target_top h hg]
      refine ⟨hm.mapTop _, ?_⟩
      rintro e ⟨⟩
  · rw [target, start_bind, start_deepenTop, if_pos (Nat.not_le.mp h)]
    exact hm.safe_error rfl

theorem buildTop_sound (op : Opcode) (state : Held) : Sound (buildTop op state) := by
  apply (target_sound op _).bind
  intro v
  split
  · next typeName body =>
    intro m hm
    have hrestore := (Body.restore_fails typeName state.value (body, m.cursor) trivial).2
    simp only [start_bind, start_get, start_set, setTarget, start_modifyTop, start_ofExcept]
    generalize (Body.restore typeName state.value).start (body, m.cursor) = o at hrestore
    have hcursor : Anchored { m with cursor := o.2.2 } := ⟨hm.stack, hm.suspended⟩
    exact ⟨hcursor.mapTop _, fun e he => (hrestore e he).other⟩
  · exact fail_sound (by simp)

theorem finish_sound : Sound finish := by
  apply Fails.get_bind
  intro m hm
  have hempty : Anchored { m with stack := [] } := ⟨by simp, hm.suspended⟩
  cases m.suspended.isEmpty with
  | false =>
    intro t ht
    rw [if_pos (by rfl), start_bind, start_fail]
    exact ht.safe_error rfl
  | true =>
    simp only [Bool.not_true, Bool.false_eq_true, if_false]
    intro _ _
    rw [start_bind, start_set]
    dsimp only
    split
    · next slot hs =>
      have hbound : slot.Bound m.memo := hm.stack slot (by rw [hs]; exact List.mem_singleton_self _)
      let rest : Machine := { m with stack := [] }
      have hresolve : Draws rest ((resolve .stop slot).start rest) := resolve_draws hbound
      rw [← bind_pure_comp]
      exact (hresolve.bind fun _ _ => .pure _).safe hempty
    · exact hempty.safe_error rfl

theorem dup_sound (op : Opcode) : Sound (dup op) := by
  intro m hm
  cases hs : m.stack with
  | nil =>
    rw [dup, start_bind, topSlot, start_bind, start_get]
    simp only [hs, start_fail]
    exact hm.safe_error rfl
  | cons s stack =>
    have htop : (topSlot op).start m = (.ok s, m) := by
      rw [topSlot, start_bind, start_get]
      simp only [hs, start_pure]
    have hstack := hm.stack
    rw [hs, List.forall_mem_cons] at hstack
    rw [dup, start_bind, htop]
    cases s with
    | owned h =>
      have hcharge : Sound (chargeCopy op h.value) :=
        fun t ht => (chargeCopy_draws h.value t).safe ht
      exact (hcharge.bind fun _ => pushOwned_sound h) m hm
    | memo k =>
      refine ⟨hm.push hstack.1, ?_⟩
      rintro e ⟨⟩

theorem stepwise_sound (op : Opcode) : Stepwise op Sound where
  pure := Fails.pure
  bind := Fails.bind
  fail := fail_sound
  push := push_sound op
  target := target_sound op
  setTarget := setTarget_sound
  topSlot := by
    apply Fails.get_bind
    intro m _
    split
    · exact Fails.pure _
    · exact fail_sound (by simp)
  popSlot := by
    rw [← bind_pure (popSlot op)]
    exact popSlot_sound fun s m _ hm => Fails.pure s m hm
  popMark := by
    rw [← bind_pure (popMark op)]
    exact popMark_sound fun slots m _ hm => Fails.pure slots m hm
  popValue := popValue_sound op
  popMarked := popMarked_sound op
  popValues := popValues_sound op
  mark := Fails.modify fun m hm => ⟨by simp, List.forall_mem_cons.mpr ⟨hm.stack, hm.suspended⟩⟩
  look hp hq := by
    apply Fails.get_bind
    intro m _
    split
    · exact hp
    · exact hq
  dup := dup_sound op
  put := put_sound op

theorem call_sound (r : Registry) (op : Opcode) (n : Nat) (callee : Value) (args : List Value) :
    Sound (call r op n callee args) := by
  apply (stepwise_sound op).call
  · exact fun name args => Fails.ofExcept fun e he => (Call.run_refusable r name args e he).other
  · exact fun _ => Fails.modify fun m hm => ⟨hm.stack, hm.suspended⟩

/-- Every instruction but one that asks for an index is sound. -/
theorem step_sound (r : Registry) (op : Opcode) {i : Instruction} (h : ∀ k, i ≠ .get k) :
    Sound (step r op i) := by
  apply (stepwise_sound op).step
  · exact fun k hk => absurd hk (h k)
  · exact fun _ => (stepwise_sound op).memoize r fun f hf => Fails.get_bind fun m _ => hf m
  · exact fun _ => buildTop_sound op
  · exact fun _ => call_sound r op

end Machine

end PickledModel
