import Mathlib.Data.List.Forall2
import PickledModel.Proofs.Bytes.Relocation
import PickledModel.Proofs.Process.Following
import PickledModel.Proofs.Stream.Success

/-! Two machines that carry out the same instructions, the second one with a
value bound to an extra index of its memo. A slot of the second machine that
refers to that index stands for a slot of the first one that owns its value, or
that refers to the index which had the value before, its twin. As long as no
value is changed under one of the two indices while the other one is referred to,
the machines stay linked. Copies are charged differently, so either may stop at
its copy limit. -/

set_option autoImplicit false

namespace PickledModel

def Slot.index? : Slot → Option Nat
  | .owned _ => none
  | .memo index => some index

def references (slots : List Slot) (segments : List (List Slot)) : List Nat :=
  (slots ++ segments.flatten).filterMap Slot.index?

theorem mem_references {slots : List Slot} {segments : List (List Slot)} {k : Nat} :
    k ∈ references slots segments ↔ Slot.memo k ∈ slots ++ segments.flatten := by
  have hindex : ∀ s : Slot, s.index? = some k ↔ s = .memo k := by
    rintro (_ | _) <;> simp [Slot.index?]
  simp [references, hindex]

/-- Two memos that agree but for an extra index, once that is bound, which the
first one lacks, and for the twin of that index once it is stale. -/
structure Link (extra twin : Nat) (bound stale : Bool) where
  left : Memo
  right : Memo
  fresh : left[extra]? = none
  agree : ∀ i : Nat, (bound = true → i ≠ extra) → (stale = true → i ≠ twin) → right[i]? = left[i]?

inductive Link.Pairs {extra twin : Nat} {bound stale : Bool} (l : Link extra twin bound stale) :
    Slot → Slot → Prop
  | owned (h : Held) : Pairs l (.owned h) (.owned h)
  | memo {i : Nat} {h : Held} : i ≠ extra → (stale = true → i ≠ twin) → l.left[i]? = some h →
      Pairs l (.memo i) (.memo i)
  | lent {h : Held} : bound = true → twin = extra → l.right[extra]? = some h →
      Pairs l (.owned h) (.memo extra)
  | twin {h : Held} : bound = true → l.left[twin]? = some h → l.right[extra]? = some h →
      Pairs l (.memo twin) (.memo extra)

theorem forall₂_of_mem {α β : Type} {R S : α → β → Prop} {xs : List α} {ys : List β}
    (h : List.Forall₂ R xs ys) (hRS : ∀ x, ∀ y ∈ ys, R x y → S x y) : List.Forall₂ S xs ys := by
  induction h with
  | nil => exact .nil
  | cons hxy _ ih =>
    exact .cons (hRS _ _ List.mem_cons_self hxy) (ih fun x y hy => hRS x y (List.mem_cons_of_mem _ hy))

def Binds (k : Nat) (h : Held) (before after : Memo) : Prop :=
  after[k]? = some h ∧ ∀ i, i ≠ k → after[i]? = before[i]?

namespace Link

variable {extra twin : Nat} {bound stale : Bool} (l : Link extra twin bound stale)

/-- Slots and suspended slots paired under one link are paired under another. -/
theorem relink {twin' : Nat} {bound' stale' : Bool} {l : Link extra twin bound stale}
    (l' : Link extra twin' bound' stale') {stack slots : List Slot}
    {suspended segments : List (List Slot)} (hstack : List.Forall₂ l.Pairs stack slots)
    (hsuspended : List.Forall₂ (List.Forall₂ l.Pairs) suspended segments)
    (h : ∀ s, ∀ s' ∈ slots ++ segments.flatten, l.Pairs s s' → l'.Pairs s s') :
    List.Forall₂ l'.Pairs stack slots ∧
      List.Forall₂ (List.Forall₂ l'.Pairs) suspended segments := by
  constructor
  · exact forall₂_of_mem hstack fun s s' hs => h s s' (List.mem_append_left _ hs)
  · apply forall₂_of_mem hsuspended
    intro segment segment' hmem hsegment
    apply forall₂_of_mem hsegment
    intro s s' hs
    exact h s s' (List.mem_append_right _ (List.mem_flatten.mpr ⟨_, hmem, hs⟩))

theorem twin_ne {h : Held} (hleft : l.left[twin]? = some h) : twin ≠ extra := by
  rintro rfl
  rw [l.fresh] at hleft
  cases hleft

def age : Link extra twin bound true where
  left := l.left
  right := l.right
  fresh := l.fresh
  agree i hextra hstale := l.agree i hextra fun _ => hstale rfl

def rebind {k : Nat} {h : Held} {left right : Memo} (hk : k ≠ extra)
    (hleft : Binds k h l.left left) (hright : Binds k h l.right right) :
    Link extra twin bound (stale && k != twin) where
  left := left
  right := right
  fresh := by rw [hleft.2 extra hk.symm, l.fresh]
  agree i hextra hstale := by
    by_cases hi : i = k
    · rw [hi, hleft.1, hright.1]
    · rw [hleft.2 i hi, hright.2 i hi]
      apply l.agree i hextra
      rintro hs rfl
      apply hstale _ rfl
      rw [hs, Bool.true_and, bne_iff_ne]
      exact fun h => hi h.symm

def change (h : bound = true ∧ (twin = extra ∨ stale = true)) {left right : Memo}
    (hfresh : left[extra]? = none) (hleft : ∀ i, i ≠ twin → left[i]? = l.left[i]?)
    (hright : ∀ i, i ≠ extra → right[i]? = l.right[i]?) : Link extra twin bound stale where
  left := left
  right := right
  fresh := hfresh
  agree i hextra hstale := by
    have htwin : i ≠ twin := h.2.elim (fun heq => heq ▸ hextra h.1) hstale
    rw [hleft i htwin, hright i (hextra h.1)]
    exact l.agree i hextra hstale

variable {l} {s s' : Slot}

theorem Pairs.age (hs : l.Pairs s s') (h : s' = .memo extra ∨ s' ≠ .memo twin) :
    l.age.Pairs s s' := by
  cases hs with
  | owned g => exact .owned g
  | memo hextra _ hleft =>
    have htwin := h.resolve_left fun h => hextra (Slot.memo.inj h)
    exact .memo hextra (fun _ h => htwin (h ▸ rfl)) hleft
  | lent hbound htwin hright => exact .lent hbound htwin hright
  | twin hbound hleft hright => exact .twin hbound hleft hright

theorem Pairs.rebind {k : Nat} {h : Held} {left right : Memo} {hk : k ≠ extra}
    {hleft : Binds k h l.left left} {hright : Binds k h l.right right} (hs : l.Pairs s s')
    (htwin : k = twin → s' ≠ .memo extra) : (l.rebind hk hleft hright).Pairs s s' := by
  cases hs with
  | owned g => exact .owned g
  | @memo i g hextra hstale hvalue =>
    have hst : (stale && k != twin) = true → i ≠ twin :=
      fun hs => hstale (Bool.and_eq_true_iff.mp hs).1
    by_cases hi : i = k
    · exact .memo hextra hst (hi ▸ hleft.1)
    · exact .memo hextra hst ((hleft.2 i hi).trans hvalue)
  | lent hbound hsame hvalue => exact .lent hbound hsame ((hright.2 extra hk.symm).trans hvalue)
  | twin hbound hvalue hvalue' =>
    have hne : twin ≠ k := fun heq => htwin heq.symm rfl
    exact .twin hbound ((hleft.2 twin hne).trans hvalue) ((hright.2 extra hk.symm).trans hvalue')

theorem Pairs.change {h : bound = true ∧ (twin = extra ∨ stale = true)} {left right : Memo} {g : Held}
    {hfresh : left[extra]? = none} {hleft : ∀ i, i ≠ twin → left[i]? = l.left[i]?}
    {hright : ∀ i, i ≠ extra → right[i]? = l.right[i]?} (hs : l.Pairs s s')
    (hlent : twin = extra → s' ≠ .memo extra) (hvalue : twin ≠ extra → left[twin]? = some g)
    (hvalue' : right[extra]? = some g) : (l.change h hfresh hleft hright).Pairs s s' := by
  cases hs with
  | owned g => exact .owned g
  | @memo i g hextra hstale hi =>
    have htwin : i ≠ twin := h.2.elim (fun heq => heq ▸ hextra) hstale
    exact .memo hextra hstale ((hleft i htwin).trans hi)
  | lent _ htwin _ => exact absurd rfl (hlent htwin)
  | twin hbound hi _ => exact .twin hbound (hvalue (l.twin_ne hi)) hvalue'

end Link

def CopiesOut (e : LoadError) : Prop :=
  ∃ limit op offset, e = .malformed (.cause (.copyLimit limit) op offset)

namespace Machine
open Process

structure Linked {extra twin : Nat} {bound stale : Bool} (near : Cursor → Cursor → Prop)
    (l : Link extra twin bound stale) (slots : List Slot) (segments : List (List Slot))
    (m m' : Machine) : Prop where
  cursor : near m.cursor m'.cursor
  left : m.memo = l.left
  right : m'.memo = l.right
  top : m'.stack = slots
  below : m'.suspended = segments
  stack : List.Forall₂ l.Pairs m.stack slots
  suspended : List.Forall₂ (List.Forall₂ l.Pairs) m.suspended segments
  reports : m.reports = m'.reports

def Tied (near : Cursor → Cursor → Prop) (extra twin : Nat) (bound stale : Bool) (m m' : Machine) : Prop :=
  ∃ (l : Link extra twin bound stale) (slots : List Slot) (segments : List (List Slot)),
    Linked near l slots segments m m'

variable {near : Cursor → Cursor → Prop} {extra twin : Nat} {bound stale : Bool}
  {l : Link extra twin bound stale} {slots : List Slot} {segments : List (List Slot)} {op : Opcode}

/-- Paired slots hold one value. -/
theorem Linked.held {m m' : Machine} (hm : Linked near l slots segments m m') {s s' : Slot}
    (hs : l.Pairs s s') : ∃ h, m.held? s = some h ∧ m'.held? s' = some h := by
  cases hs with
  | owned h => exact ⟨h, rfl, rfl⟩
  | @memo i h hextra hstale hleft =>
    rw [held?, held?, hm.left, hm.right, l.agree i (fun _ => hextra) hstale]
    exact ⟨h, hleft, hleft⟩
  | @lent h _ _ hright =>
    rw [held?, held?, hm.right]
    exact ⟨h, rfl, hright⟩
  | @twin h _ hleft hright =>
    rw [held?, held?, hm.left, hm.right]
    exact ⟨h, hleft, hright⟩

section
variable {α β : Type}

abbrev Mirrors (near : Cursor → Cursor → Prop) (l : Link extra twin bound stale) (slots : List Slot)
    (segments : List (List Slot)) (p : Process Machine α) (p' : Process Machine β)
    (q : α → β → Prop) (slots' : List Slot) (segments' : List (List Slot)) : Prop :=
  Follows (Linked near l slots segments) (Linked near l slots' segments') CopiesOut p p' q

theorem Mirrors.tied {p : Process Machine α} {p' : Process Machine β} {q : α → β → Prop}
    {slots' : List Slot} {segments' : List (List Slot)}
    (h : Mirrors near l slots segments p p' q slots' segments') :
    Follows (Linked near l slots segments) (Tied near extra twin bound stale) CopiesOut p p' q :=
  h.weaken (fun _ _ hq => hq) fun _ _ hm => ⟨l, slots', segments', hm⟩

theorem fail_mirrors {i j : Machine → Machine → Prop} {q : α → β → Prop} (c : Cause)
    (p' : Process Machine β) : Follows i j CopiesOut (fail op c : Process Machine α) p' q := by
  rintro m m' _ a t ⟨⟩

end

/-- What can be taken out of a slot is, or the copy is refused. -/
theorem start_resolve_held (op : Opcode) {m : Machine} {s : Slot} {g : Held} (h : m.held? s = some g) :
    (∃ allowance, (resolve op s).start m =
      (.ok { g with value := g.value.normalize }, { m with allowance })) ∨
    ∃ e, (resolve op s).start m = (.error e, m) ∧ CopiesOut e := by
  cases s with
  | owned h' =>
    obtain rfl := Option.some.inj h
    exact .inl ⟨m.allowance, rfl⟩
  | memo i =>
    have hi : m.memo[i]? = some g := h
    rw [start_resolve_memo, hi]
    dsimp only
    cases g.value.footprint? m.allowance with
    | some cost => exact .inl ⟨_, rfl⟩
    | none => exact .inr ⟨_, rfl, _, _, _, rfl⟩

theorem resolve_mirrors {s s' : Slot} (hs : l.Pairs s s') :
    Mirrors near l slots segments (resolve op s) (resolve op s') Eq slots segments := by
  intro m m' hm h t hstart
  obtain ⟨g, allowance, hg, rfl, rfl⟩ := resolve_ok hstart
  obtain ⟨g', hleft, hright⟩ := hm.held hs
  obtain rfl := Option.some.inj (hg.symm.trans hleft)
  obtain ⟨allowance', hstart'⟩ | ⟨e, hstart', he⟩ := start_resolve_held op hright
  · rw [hstart']
    exact ⟨rfl, { hm with }⟩
  · rw [hstart']
    exact he

theorem resolveAll_mirrors {ss ss' : List Slot} (h : List.Forall₂ l.Pairs ss ss') :
    Mirrors near l slots segments (resolveAll op ss) (resolveAll op ss') Eq slots segments := by
  apply (Follows.mapM h fun _ _ hs => resolve_mirrors hs).bind
  intro hs hs' heq
  rw [List.forall₂_eq_eq_eq] at heq
  subst heq
  exact Follows.pure rfl

theorem popSlot_mirrors : Mirrors near l slots segments (popSlot op) (popSlot op) l.Pairs
    slots.tail segments := by
  apply Follows.get.bind
  rintro m m' hm
  have hstack := hm.stack
  have htop := hm.top
  revert hstack htop
  generalize m.stack = left
  rintro (_ | ⟨hs, hstack⟩) htop
  · exact fail_mirrors _ _
  · rw [htop]
    exact (Follows.set { hm with top := rfl, stack := hstack }).bind fun _ _ _ => Follows.pure hs

theorem topSlot_mirrors : Mirrors near l slots segments (topSlot op) (topSlot op) l.Pairs
    slots segments := by
  apply Follows.get.bind
  rintro m m' hm
  have hstack := hm.stack
  have htop := hm.top
  revert hstack htop
  generalize m.stack = left
  rintro (_ | ⟨hs, hstack⟩) htop
  · exact fail_mirrors _ _
  · rw [htop]
    exact Follows.pure hs

theorem popMark_mirrors : Mirrors near l slots segments (popMark op) (popMark op)
    (List.Forall₂ l.Pairs) (segments.headD []) segments.tail := by
  apply Follows.get.bind
  rintro m m' hm
  have hsuspended := hm.suspended
  have hbelow := hm.below
  revert hsuspended hbelow
  generalize m.suspended = left
  rintro (_ | ⟨hs, hsuspended⟩) hbelow
  · exact fail_mirrors _ _
  · rw [hbelow]
    have hslots : List.Forall₂ l.Pairs m.stack.reverse m'.stack.reverse := by
      rw [hm.top, List.forall₂_reverse_iff]
      exact hm.stack
    exact (Follows.set { hm with top := rfl, below := rfl, stack := hs, suspended := hsuspended }).bind
      fun _ _ _ => Follows.pure hslots

theorem popValue_mirrors : Mirrors near l slots segments (popValue op) (popValue op) Eq
    slots.tail segments :=
  popSlot_mirrors.bind fun _ _ hs => resolve_mirrors hs

theorem popMarked_mirrors : Mirrors near l slots segments (popMarked op) (popMarked op) Eq
    (segments.headD []) segments.tail :=
  popMark_mirrors.bind fun _ _ hs => resolveAll_mirrors hs

theorem popValues_mirrors (n : Nat) : Mirrors near l slots segments (popValues op n)
    (popValues op n) Eq (slots.drop n) segments := by
  apply Follows.get.bind
  intro m m' hm
  dsimp only
  rw [hm.top]
  have htaken := List.forall₂_take n hm.stack
  rw [htaken.length_eq]
  by_cases h : (slots.take n).length < n
  · simp only [h, if_true]
    exact fail_mirrors _ _
  · simp only [h, if_false]
    have hrest := List.forall₂_drop n hm.stack
    exact (Follows.set { hm with top := rfl, stack := hrest }).bind fun _ _ _ =>
      resolveAll_mirrors (List.forall₂_reverse_iff.mpr htaken)

theorem pushSlot_mirrors {s s' : Slot} (hs : l.Pairs s s') : Mirrors near l slots segments
    (pushSlot s) (pushSlot s') (fun _ _ => True) (s' :: slots) segments :=
  Follows.modify fun _ _ hm =>
    { hm with top := by rw [hm.top], stack := .cons hs hm.stack }

theorem checkDepth_mirrors (depth : Nat) : Mirrors near l slots segments (checkDepth op depth)
    (checkDepth op depth) (fun _ _ => True) slots segments := by
  unfold checkDepth
  split
  · exact fail_mirrors _ _
  · exact Follows.pure trivial

theorem push_mirrors (n : Nat) (v : Value) : Mirrors near l slots segments (push op n v)
    (push op n v) (fun _ _ => True) (.owned ⟨v, levelsOver n v⟩ :: slots) segments :=
  (checkDepth_mirrors _).bind fun _ _ _ => pushSlot_mirrors (.owned _)

theorem pairs_mirrors (items : List Value) : Mirrors near l slots segments (pairs op items)
    (pairs op items) Eq slots segments := by
  unfold pairs
  split
  · exact Follows.pure rfl
  · exact fail_mirrors _ _

theorem arguments_mirrors (v : Value) : Mirrors near l slots segments (arguments op v)
    (arguments op v) Eq slots segments := by
  unfold arguments
  split
  · exact Follows.pure rfl
  · exact fail_mirrors _ _

theorem call_mirrors (r : Registry) (n : Nat) (callee : Value) (args : List Value) :
    Follows (Linked near l slots segments) (Tied near extra twin bound stale) CopiesOut
      (call r op n callee args) (call r op n callee args) fun _ _ => True := by
  unfold call
  split
  · apply Follows.bind (q := Eq) (Follows.ofExcept fun o ho => ⟨o, ho, rfl⟩)
    rintro o _ rfl
    have hreport : Mirrors near l slots segments
        (modify fun m => { m with reports := m.reports ++ o.unresolved.toList })
        (modify fun m => { m with reports := m.reports ++ o.unresolved.toList })
        (fun _ _ => True) slots segments :=
      Follows.modify fun _ _ hm => { hm with reports := by rw [hm.reports] }
    exact hreport.bind fun _ _ _ => (push_mirrors n o.value).tied
  · exact fail_mirrors _ _

def Charges (p : Process Machine Unit) : Prop :=
  ∀ m, (∃ allowance, p.start m = (.ok (), { m with allowance })) ∨
    ∃ e, p.start m = (.error e, m) ∧ CopiesOut e

theorem Charges.pure : Charges (Pure.pure ()) := fun m => .inl ⟨m.allowance, rfl⟩

theorem Charges.copy (op : Opcode) (v : Value) : Charges (chargeCopy op v) := by
  intro m
  rw [chargeCopy, start_bind, start_get]
  dsimp only
  cases v.footprint? m.allowance with
  | some cost => exact .inl ⟨_, rfl⟩
  | none => exact .inr ⟨_, rfl, _, _, _, rfl⟩

theorem Charges.mirrors {p p' : Process Machine Unit} (h : Charges p) (h' : Charges p') :
    Mirrors near l slots segments p p' (fun _ _ => True) slots segments := by
  intro m m' hm u t hstart
  obtain ⟨allowance, hok⟩ | ⟨e, herror, -⟩ := h m
  · rw [hok] at hstart
    cases hstart
    obtain ⟨allowance', hok'⟩ | ⟨e', herror', he'⟩ := h' m'
    · rw [hok']
      exact ⟨trivial, { hm with }⟩
    · rw [herror']
      exact he'
  · rw [herror] at hstart
    cases hstart

theorem dup_mirrors : Follows (Linked near l slots segments) (Tied near extra twin bound stale) CopiesOut
    (dup op) (dup op) fun _ _ => True := by
  apply topSlot_mirrors.bind
  intro s s' hs
  have hpush : Follows (Linked near l slots segments) (Tied near extra twin bound stale) CopiesOut
      (pushSlot s) (pushSlot s') fun _ _ => True :=
    (pushSlot_mirrors hs).tied
  -- a slot that owns its value is charged for in the first machine alone, if it is lent to the memo
  cases hs with
  | owned h => exact ((Charges.copy op _).mirrors (.copy op _)).bind fun _ _ _ => hpush
  | memo _ _ _ => exact hpush
  | lent _ _ _ => exact ((Charges.copy op _).mirrors .pure).bind fun _ _ _ => hpush
  | twin _ _ _ => exact hpush

/-- A fetched index is a bound one, and not one that is out of date. -/
theorem pushMemo_mirrors {k : Nat} (hk : stale = true → k ≠ twin) :
    Follows (Linked near l slots segments) (Tied near extra twin bound stale) CopiesOut
      (pushMemo op k) (pushMemo op k) fun _ _ => True := by
  intro m m' hm u t hstart
  obtain ⟨hbound, rfl⟩ := pushMemo_ok hstart
  have hextra : k ≠ extra := by
    rintro rfl
    rw [hm.left, l.fresh] at hbound
    cases hbound
  have hbound' : m'.memo.contains k := by
    rw [Std.TreeMap.contains_eq_isSome_getElem?, hm.right,
      l.agree k (fun _ => hextra) hk, ← hm.left]
    exact hbound
  have hstart' : (pushMemo op k).start m' = (.ok (), { m' with stack := .memo k :: m'.stack }) := by
    rw [pushMemo, start_bind, start_get]
    simp only [hbound', if_true]
    rfl
  rw [hstart']
  rw [hm.left] at hbound
  obtain ⟨h, hleft⟩ := Option.isSome_iff_exists.mp hbound
  have hsame : l.Pairs (.memo k) (.memo k) := .memo hextra hk hleft
  exact ⟨trivial, l, .memo k :: slots, segments,
    { hm with top := by rw [hm.top], stack := .cons hsame hm.stack }⟩

theorem mark_mirrors : Mirrors near l slots segments
    (modify fun m => { m with stack := [], suspended := m.stack :: m.suspended })
    (modify fun m => { m with stack := [], suspended := m.stack :: m.suspended })
    (fun _ _ => True) [] (slots :: segments) :=
  Follows.modify fun _ _ hm =>
    { hm with
      top := rfl
      below := by rw [hm.top, hm.below]
      stack := .nil
      suspended := .cons hm.stack hm.suspended }

/-- A value taken off the stack, or a mark with nothing on it. -/
theorem pop_mirrors (r : Registry) :
    Follows (Linked near l slots segments) (Tied near extra twin bound stale) CopiesOut
      (step r op .pop) (step r op .pop) fun _ _ => True := by
  apply Follows.get.bind
  intro m m' hm
  have hempty : (m.stack.isEmpty && !m.suspended.isEmpty) =
      (m'.stack.isEmpty && !m'.suspended.isEmpty) := by
    have hstack := hm.stack.length_eq
    have hsuspended := hm.suspended.length_eq
    rw [hm.top, hm.below, Bool.eq_iff_iff]
    simp only [Bool.and_eq_true, Bool.not_eq_true', List.isEmpty_iff_length_eq_zero,
      ← Bool.not_eq_true, hstack, hsuspended]
  rw [hempty]
  split
  · exact Mirrors.tied (popMark_mirrors.bind fun _ _ _ => Follows.pure trivial)
  · exact Mirrors.tied (popSlot_mirrors.bind fun _ _ _ => Follows.pure trivial)

theorem finish_mirrors :
    Follows (Linked near l slots segments)
      (fun m m' => near m.cursor m'.cursor ∧ m.reports = m'.reports) CopiesOut finish finish Eq := by
  intro m m' hm v t h
  obtain ⟨s, g, hnone, hone, hresult, rfl⟩ := finish_ok h
  have hsuspended := hm.suspended
  have hpairs := hm.stack
  rw [hnone] at hsuspended
  rw [hone] at hpairs
  cases hsuspended
  cases hpairs with
  | cons hs hrest =>
    cases hrest
    have hempty : Linked near l [] [] { m with stack := [] } { m' with stack := [] } :=
      { hm with top := rfl, stack := .nil }
    have hmeets := resolve_mirrors hs _ _ hempty g t hresult
    rw [finish, start_bind, start_get]
    simp only [hm.below, hm.top, List.isEmpty_nil, Bool.not_true, Bool.false_eq_true, if_false,
      start_bind, start_set, start_map]
    rw [hm.below] at hmeets
    rcases ho : (resolve .stop _).start { m' with stack := [], suspended := [] } with ⟨e | g', t'⟩ <;>
      rw [ho] at hmeets
    · exact hmeets
    · obtain ⟨rfl, hend⟩ := hmeets
      exact ⟨rfl, hend.cursor, hend.reports⟩

end Machine

end PickledModel
