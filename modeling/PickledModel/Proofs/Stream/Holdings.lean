import PickledModel.Proofs.Value.Nesting
import PickledModel.Proofs.Stream.Instruction
import PickledModel.Stream.Load

/-! Invariants of the values that a machine holds, in its slots and in its
memo. A property is kept by every instruction if it is kept where a value is
made or changed: by containers that are built or grow, by the results of calls
and by restored objects, each made of what was taken out of slots. -/

set_option autoImplicit false

namespace PickledModel

inductive Inside (q : Value → Prop) : Value → Prop
  | base {v : Value} : q v → Inside q v
  | child {v c : Value} : Inside q v → c ∈ v.children → Inside q c
  | none : Inside q .none

theorem inside_hereditary (q : Value → Prop) : Hereditary (Inside q) :=
  ⟨.none, fun _ hv _ hc => .child hv hc⟩

theorem Inside.least {q q' : Value → Prop} (hq' : Hereditary q') (h : ∀ v, q v → q' v)
    {v : Value} (hv : Inside q v) : q' v := by
  induction hv with
  | base hq => exact h _ hq
  | child _ hc ih => exact hq'.child _ ih _ hc
  | none => exact hq'.none

variable {p : Held → Prop}

/-- What a slot of at most `n` levels gives when its value is taken out. -/
def Taken (p : Held → Prop) (n : Nat) (v : Value) : Prop :=
  ∃ h, p h ∧ h.depth ≤ n ∧ v = h.value.normalize

theorem Taken.mono {n n' : Nat} {v : Value} (h : Taken p n v) (hn : n ≤ n') : Taken p n' v := by
  obtain ⟨h, hp, hd, rfl⟩ := h
  exact ⟨h, hp, Nat.le_trans hd hn, rfl⟩

/-- Where values are made or changed: from parts of what was taken out of slots
of at most `n` levels, and for a change of what was there. -/
structure Closed (p : Held → Prop) : Prop where
  make : ∀ (n : Nat) (v : Value), (∀ c ∈ v.children, Inside (Taken p n) c) →
    Machine.levelsOver n v ≤ maxNesting → p ⟨v, Machine.levelsOver n v⟩
  change : ∀ (n : Nat) (h : Held) (v : Value), p h → n + 1 ≤ maxNesting →
    (∀ c ∈ v.children, Inside (fun u => u ∈ h.value.children ∨ Taken p n u) c) →
    p ⟨v, max h.depth (n + 1)⟩

def Slot.Holds (p : Held → Prop) : Slot → Prop
  | .owned h => p h
  | .memo _ => True

namespace Machine
open Process

structure Holds (p : Held → Prop) (m : Machine) : Prop where
  stack : ∀ s ∈ m.stack, s.Holds p
  suspended : ∀ segment ∈ m.suspended, ∀ s ∈ segment, s.Holds p
  memo : ∀ (k : Nat) (h : Held), m.memo[k]? = some h → p h

theorem ofBytes_holds (p : Held → Prop) (data : Bytes) : (ofBytes data).Holds p :=
  ⟨by simp [ofBytes], by simp [ofBytes], by simp [ofBytes]⟩

theorem Holds.of_forall {p : Held → Prop} (hp : ∀ h, p h) (m : Machine) : m.Holds p := by
  have hslot : ∀ s : Slot, s.Holds p := by
    rintro (h | _)
    · exact hp h
    · trivial
  exact ⟨fun s _ => hslot s, fun _ _ s _ => hslot s, fun _ h _ => hp h⟩

theorem Holds.and {p q : Held → Prop} {m : Machine} (hp : m.Holds p) (hq : m.Holds q) :
    m.Holds fun h => p h ∧ q h := by
  have hslot : ∀ s : Slot, s.Holds p → s.Holds q → s.Holds fun h => p h ∧ q h := by
    rintro (h | _) hp hq
    · exact ⟨hp, hq⟩
    · trivial
  constructor
  · exact fun s hs => hslot s (hp.stack s hs) (hq.stack s hs)
  · exact fun g hg s hs => hslot s (hp.suspended g hg s hs) (hq.suspended g hg s hs)
  · exact fun k h hk => ⟨hp.memo k h hk, hq.memo k h hk⟩

def held? (m : Machine) : Slot → Option Held
  | .owned h => some h
  | .memo k => m.memo[k]?

def top? (m : Machine) : Option Held := m.stack.head?.bind m.held?

theorem Holds.held {m : Machine} {s : Slot} {h : Held} (hm : m.Holds p) (hs : s.Holds p)
    (ht : m.held? s = some h) : p h := by
  cases s with
  | owned g =>
    obtain rfl := Option.some.inj ht
    exact hs
  | memo k => exact hm.memo k h ht

theorem Holds.top {m : Machine} {h : Held} (hm : m.Holds p) (ht : m.top? = some h) : p h := by
  obtain ⟨s, hs, hh⟩ := Option.bind_eq_some_iff.mp ht
  exact hm.held (hm.stack s (List.mem_of_mem_head? hs)) hh

theorem fail_keeps {α : Type} {i : Machine → Prop} {q : α → Prop} (op : Opcode) (c : Cause) :
    Keeps i (fail op c : Process Machine α) q :=
  Keeps.get.bind fun _ _ => Keeps.throw _

theorem chargeCopy_keeps (op : Opcode) (v : Value) :
    Keeps (Holds p) (chargeCopy op v) fun _ => True := by
  apply Keeps.get.bind
  intro m hm
  cases v.footprint? m.allowance with
  | none => exact fail_keeps _ _
  | some cost => exact Keeps.set ⟨hm.stack, hm.suspended, hm.memo⟩

theorem copyMemo_keeps (op : Opcode) (k : Nat) : Keeps (Holds p) (copyMemo op k) p := by
  apply Keeps.get.bind
  intro m hm
  cases hk : m.memo[k]? with
  | none => exact fail_keeps _ _
  | some h => exact (chargeCopy_keeps op h.value).bind fun _ _ => Keeps.pure (hm.memo k h hk)

theorem resolve_keeps (op : Opcode) {s : Slot} (hs : s.Holds p) :
    Keeps (Holds p) (resolve op s) fun h =>
      ∃ h', p h' ∧ h = { h' with value := h'.value.normalize } := by
  cases s with
  | owned h => exact Keeps.pure ⟨h, hs, rfl⟩
  | memo k => exact (copyMemo_keeps op k).bind fun h hp => Keeps.pure ⟨h, hp, rfl⟩

theorem resolve_taken (op : Opcode) {s : Slot} (hs : s.Holds p) :
    Keeps (Holds p) (resolve op s) fun h => Taken p h.depth h.value := by
  apply (resolve_keeps op hs).weaken
  rintro _ ⟨h, hp, rfl⟩
  exact ⟨h, hp, Nat.le_refl _, rfl⟩

theorem resolveAll_taken (op : Opcode) {slots : List Slot} (hs : ∀ s ∈ slots, s.Holds p) :
    Keeps (Holds p) (resolveAll op slots) fun g => ∀ v ∈ g.values, Taken p g.depth v := by
  refine (Keeps.mapM fun s hm => resolve_taken op (hs s hm)).bind fun hs hw => Keeps.pure ?_
  intro v hv
  obtain ⟨h, hh, rfl⟩ := List.mem_map.mp hv
  apply (hw h hh).mono
  exact (foldl_max_le_iff.mp (Nat.le_refl _)).2 h.depth (List.mem_map_of_mem hh)

theorem pushSlot_keeps {s : Slot} (hs : s.Holds p) :
    Keeps (Holds p) (pushSlot s) fun _ => True :=
  Keeps.modify fun _ hm => ⟨List.forall_mem_cons.mpr ⟨hs, hm.stack⟩, hm.suspended, hm.memo⟩

theorem checkDepth_keeps (op : Opcode) (depth : Nat) :
    Keeps (Holds p) (checkDepth op depth) fun _ => depth ≤ maxNesting := by
  unfold checkDepth
  by_cases h : maxNesting < depth
  · rw [if_pos h]
    exact fail_keeps _ _
  · rw [if_neg h]
    exact Keeps.pure (Nat.not_lt.mp h)

theorem push_keeps {op : Opcode} {inner : Nat} {v : Value}
    (h : levelsOver inner v ≤ maxNesting → p ⟨v, levelsOver inner v⟩) :
    Keeps (Holds p) (push op inner v) fun _ => True :=
  (checkDepth_keeps op _).bind fun _ hd => pushSlot_keeps (h hd)

theorem popSlot_keeps (op : Opcode) : Keeps (Holds p) (popSlot op) (Slot.Holds p) := by
  apply Keeps.get.bind
  intro m hm
  have hstack := hm.stack
  cases h : m.stack with
  | nil => exact fail_keeps _ _
  | cons s stack =>
    rw [h, List.forall_mem_cons] at hstack
    exact (Keeps.set ⟨hstack.2, hm.suspended, hm.memo⟩).bind fun _ _ => Keeps.pure hstack.1

theorem topSlot_keeps (op : Opcode) : Keeps (Holds p) (topSlot op) (Slot.Holds p) := by
  apply Keeps.get.bind
  intro m hm
  have hstack := hm.stack
  cases h : m.stack with
  | nil => exact fail_keeps _ _
  | cons s stack =>
    rw [h, List.forall_mem_cons] at hstack
    exact Keeps.pure hstack.1

theorem popMark_keeps (op : Opcode) :
    Keeps (Holds p) (popMark op) fun slots => ∀ s ∈ slots, s.Holds p := by
  apply Keeps.get.bind
  intro m hm
  have hsuspended := hm.suspended
  cases h : m.suspended with
  | nil => exact fail_keeps _ _
  | cons stack suspended =>
    rw [h, List.forall_mem_cons] at hsuspended
    refine (Keeps.set ⟨hsuspended.1, hsuspended.2, hm.memo⟩).bind fun _ _ => Keeps.pure ?_
    exact fun s hs => hm.stack s (List.mem_reverse.mp hs)

theorem popValue_taken (op : Opcode) :
    Keeps (Holds p) (popValue op) fun h => Taken p h.depth h.value :=
  (popSlot_keeps op).bind fun _ hs => resolve_taken op hs

theorem popMarked_taken (op : Opcode) :
    Keeps (Holds p) (popMarked op) fun g => ∀ v ∈ g.values, Taken p g.depth v :=
  (popMark_keeps op).bind fun _ hs => resolveAll_taken op hs

theorem popValues_taken (op : Opcode) (n : Nat) :
    Keeps (Holds p) (popValues op n) fun g => ∀ v ∈ g.values, Taken p g.depth v := by
  apply Keeps.get.bind
  intro m hm
  by_cases h : (m.stack.take n).length < n
  · simp only [h, if_true]
    exact fail_keeps _ _
  · simp only [h, if_false]
    have hrest : Holds p { m with stack := m.stack.drop n } :=
      ⟨fun s hs => hm.stack s (List.mem_of_mem_drop hs), hm.suspended, hm.memo⟩
    refine (Keeps.set hrest).bind fun _ _ => resolveAll_taken op ?_
    exact fun s hs => hm.stack s (List.mem_of_mem_take (List.mem_reverse.mp hs))

def mapTop (f : Held → Held) (m : Machine) : Machine :=
  ((modifyTop f).start m).2

theorem start_modifyTop (f : Held → Held) (m : Machine) :
    (modifyTop f).start m = (.ok (), m.mapTop f) := rfl

theorem mapTop_nil (f : Held → Held) {m : Machine} (hs : m.stack = []) : m.mapTop f = m := by
  simp only [mapTop, modifyTop, start_modify, hs]

theorem mapTop_owned (f : Held → Held) {m : Machine} {h : Held} {stack : List Slot}
    (hs : m.stack = .owned h :: stack) :
    m.mapTop f = { m with stack := .owned (f h) :: stack } := by
  simp only [mapTop, modifyTop, start_modify, hs]

theorem mapTop_memo (f : Held → Held) {m : Machine} {k : Nat} {stack : List Slot}
    (hs : m.stack = .memo k :: stack) :
    (∃ h, m.memo[k]? = some h ∧ m.mapTop f = { m with memo := m.memo.insert k (f h) }) ∨
      (m.memo[k]? = none ∧ m.mapTop f = m) := by
  cases hk : m.memo[k]? with
  | none =>
    refine .inr ⟨rfl, ?_⟩
    simp only [mapTop, modifyTop, start_modify, hs, hk]
  | some h =>
    refine .inl ⟨h, rfl, ?_⟩
    simp only [mapTop, modifyTop, start_modify, hs, hk]

/-- What the uppermost slot stands for is in that slot or in the memo. -/
theorem mapTop_eq (f : Held → Held) (m : Machine) :
    ∃ stack memo, m.mapTop f = { m with stack, memo } := by
  cases hs : m.stack with
  | nil => exact ⟨m.stack, m.memo, mapTop_nil f hs⟩
  | cons s stack =>
    cases s with
    | owned h => exact ⟨_, m.memo, mapTop_owned f hs⟩
    | memo k =>
      rcases mapTop_memo f hs with ⟨h, -, hmap⟩ | ⟨-, hmap⟩
      · exact ⟨m.stack, _, hmap⟩
      · exact ⟨m.stack, m.memo, hmap⟩

theorem top?_mapTop (f : Held → Held) (m : Machine) : (m.mapTop f).top? = m.top?.map f := by
  cases hs : m.stack with
  | nil =>
    rw [mapTop_nil f hs, top?, hs]
    rfl
  | cons s stack =>
    have htop : m.top? = m.held? s := by rw [top?, hs, List.head?_cons, Option.bind_some]
    rw [htop]
    cases s with
    | owned h =>
      rw [mapTop_owned f hs]
      rfl
    | memo k =>
      rcases mapTop_memo f hs with ⟨h, hk, hmap⟩ | ⟨hk, hmap⟩
      · have hbound : (m.memo.insert k (f h))[k]? = some (f h) := Std.TreeMap.getElem?_insert_self
        rw [hmap, top?, hs, held?, hk]
        exact hbound
      · rw [hmap, htop, held?, hk]
        rfl

theorem Holds.mapTop {m : Machine} {f : Held → Held} (hm : m.Holds p)
    (hf : ∀ h, m.top? = some h → p (f h)) : (m.mapTop f).Holds p := by
  cases hs : m.stack with
  | nil => rwa [mapTop_nil f hs]
  | cons s stack =>
    have hstack := hm.stack
    rw [hs, List.forall_mem_cons] at hstack
    have htop : m.top? = m.held? s := by rw [top?, hs, List.head?_cons, Option.bind_some]
    cases s with
    | owned h =>
      rw [mapTop_owned f hs]
      exact ⟨List.forall_mem_cons.mpr ⟨hf h htop, hstack.2⟩, hm.suspended, hm.memo⟩
    | memo k =>
      rcases mapTop_memo f hs with ⟨h, hk, hmap⟩ | ⟨hk, hmap⟩
      · rw [hmap]
        refine ⟨hm.stack, hm.suspended, fun j g hj => ?_⟩
        rw [Std.TreeMap.getElem?_insert] at hj
        split at hj
        · obtain rfl := Option.some.inj hj
          exact hf h (htop.trans hk)
        · exact hm.memo j g hj
      · rwa [hmap]

end Machine

end PickledModel
