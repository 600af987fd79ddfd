import Mathlib.Algebra.Ring.Int.Defs
import Mathlib.Algebra.Ring.Nat
import PickledModel.Proofs.Bytes.Tracking
import PickledModel.Proofs.Stream.Reachability

/-! Two loads side by side. They are coupled by relations of what their slots
hold, of what is taken out of slots, of their cursors, allowances and reports.
If the second machine can answer each part of a step of the first, or else stops
with one of a few errors, it answers whole steps and whole loads. -/

set_option autoImplicit false

namespace PickledModel

/-- What a second load has to answer. Between instructions slots hold related
values that are `ready`; what a step puts into a slot is `held`, and ready again
if the first machine's value is `sound`. -/
structure Coupling extends Track where
  left : Registry
  right : Registry
  budget : Nat → Nat → Prop
  reports : List String → List String → Prop
  sound : Value → Prop
  ready : Value → Value → Prop
  held : Value → Value → Prop
  taken : Value → Value → Prop
  quiet : ∀ e, stops e → ¬ Machine.TooDeep e
  held_of_ready : ∀ v w, ready v w → held v w
  ready_of_sound : ∀ v w, held v w → sound v → ready v w
  nests : ∀ v w, held v w → v.nests = w.nests
  normalize : ∀ v w, ready v w → taken v.normalize w.normalize
  bare : ∀ v, v.children = [] → v.Ordinary → held v v
  leaf : ∀ l w, taken (.leaf l) w → w = .leaf l
  items : ∀ v w vs, taken v w → v.items? = some vs →
    ∃ ws, w.items? = some ws ∧ List.Forall₂ taken vs ws
  gather : ∀ kind vs ws, List.Forall₂ taken vs ws →
    held (.sequence kind (if kind = .frozenSet then Value.distinctItems vs else vs))
      (.sequence kind (if kind = .frozenSet then Value.distinctItems ws else ws))
  gatherDict : ∀ es fs, List.Forall₂ (fun e e' => taken e.1 e'.1 ∧ taken e.2 e'.2) es fs →
    held (.dict es) (.dict fs)
  extend : ∀ v w v' a b, ready v w → a.Related taken b → v.Extends a v' →
    ∃ w', w.Extends b w' ∧ held v' w'
  call : ∀ name args args' o, List.Forall₂ taken args args' → Call.run left name args = .ok o →
    ∃ o', Call.run right name args' = .ok o' ∧ held o.value o'.value ∧
      ∀ rs rs', reports rs rs' →
        reports (rs ++ o.unresolved.toList) (rs' ++ o'.unresolved.toList)
  restore : ∀ typeName body w state state', ready (.object typeName body) w → taken state state' →
    ∃ body', w = .object typeName body' ∧
      Process.Follows (fun s s' => s.1 = body ∧ s'.1 = body' ∧ related s.2 s'.2)
        (fun s s' => held (.object typeName s.1) (.object typeName s'.1) ∧ related s.2 s'.2) stops
        (Body.restore typeName state) (Body.restore typeName state') fun _ _ => True
  copy : ∀ v w a b cost, ready v w → budget a b → v.footprint? a = some cost →
    match w.footprint? b with
    | some cost' => budget (a - cost) (b - cost')
    | none => ∀ limit op offset, stops (.malformed (.cause (.copyLimit limit) op offset))

def Held.Related (rel : Value → Value → Prop) (h h' : Held) : Prop :=
  rel h.value h'.value ∧ h.depth = h'.depth

inductive Slot.Related (rel : Value → Value → Prop) : Slot → Slot → Prop
  | owned {h h' : Held} : h.Related rel h' → Related rel (.owned h) (.owned h')
  | memo (k : Nat) : Related rel (.memo k) (.memo k)

namespace Coupling
open Process Machine

variable {k : Coupling} {rel : Value → Value → Prop} {op : Opcode}

structure Coupled (k : Coupling) (rel : Value → Value → Prop) (m m' : Machine) : Prop where
  cursor : k.related m.cursor m'.cursor
  stack : List.Forall₂ (Slot.Related rel) m.stack m'.stack
  suspended : List.Forall₂ (List.Forall₂ (Slot.Related rel)) m.suspended m'.suspended
  memo : ∀ i : Nat, Option.Rel (Held.Related rel) m.memo[i]? m'.memo[i]?
  size : m.memo.size = m'.memo.size
  allowance : k.budget m.allowance m'.allowance
  reports : k.reports m.reports m'.reports

abbrev Answers {α β : Type} (k : Coupling) (rel : Value → Value → Prop) (p : Process Machine α)
    (p' : Process Machine β) (q : α → β → Prop) : Prop :=
  Follows (k.Coupled k.ready) (k.Coupled rel) k.stops p p' q

theorem slot_mono {rel rel' : Value → Value → Prop} (h : ∀ v w, rel v w → rel' v w) {s s' : Slot}
    (hs : s.Related rel s') : s.Related rel' s' := by
  cases hs with
  | owned hh => exact .owned ⟨h _ _ hh.1, hh.2⟩
  | memo i => exact .memo i

theorem Coupled.mono {rel rel' : Value → Value → Prop} (h : ∀ v w, rel v w → rel' v w)
    {m m' : Machine} (hm : k.Coupled rel m m') : k.Coupled rel' m m' where
  cursor := hm.cursor
  stack := hm.stack.imp fun _ _ => slot_mono h
  suspended := hm.suspended.imp fun _ _ hs => hs.imp fun _ _ => slot_mono h
  memo i := by
    have hi := hm.memo i
    revert hi
    generalize m.memo[i]? = o
    generalize m'.memo[i]? = o'
    rintro (⟨hh⟩ | _)
    · exact .some ⟨h _ _ hh.1, hh.2⟩
    · exact .none
  size := hm.size
  allowance := hm.allowance
  reports := hm.reports

theorem ofBytes_coupled {data data' : Bytes} (hc : k.related (.ofBytes data) (.ofBytes data'))
    (hb : k.budget (copyLimitFor data.length) (copyLimitFor data'.length)) (hr : k.reports [] []) :
    k.Coupled rel (ofBytes data) (ofBytes data') where
  cursor := hc
  stack := .nil
  suspended := .nil
  memo _ := by
    simp only [ofBytes, Std.TreeMap.getElem?_emptyc]
    exact .none
  size := rfl
  allowance := hb
  reports := hr

theorem slot_ready {s s' : Slot} (hp : s.Holds fun h => k.sound h.value)
    (hs : s.Related k.held s') : s.Related k.ready s' := by
  cases hs with
  | owned hh => exact .owned ⟨k.ready_of_sound _ _ hh.1 hp, hh.2⟩
  | memo i => exact .memo i

/-- Slots that hold sound values are ready. -/
theorem Coupled.ready {m m' : Machine} (hm : k.Coupled k.held m m')
    (hp : m.Holds fun h => k.sound h.value) : k.Coupled k.ready m m' where
  cursor := hm.cursor
  stack := ((List.forall₂_and_left _ _).mpr ⟨hp.stack, hm.stack⟩).imp fun _ _ h => slot_ready h.1 h.2
  suspended := by
    apply ((List.forall₂_and_left _ _).mpr ⟨hp.suspended, hm.suspended⟩).imp
    rintro segment segment' ⟨hp, hs⟩
    exact ((List.forall₂_and_left _ _).mpr ⟨hp, hs⟩).imp fun _ _ h => slot_ready h.1 h.2
  memo i := by
    have hi := hm.memo i
    have hpi := hp.memo i
    revert hi hpi
    generalize m.memo[i]? = o
    generalize m'.memo[i]? = o'
    rintro (⟨hh⟩ | _) hpi
    · exact .some ⟨k.ready_of_sound _ _ hh.1 (hpi _ rfl), hh.2⟩
    · exact .none
  size := hm.size
  allowance := hm.allowance
  reports := hm.reports

section
variable {α β : Type} {q : α → β → Prop} {i j : Machine → Machine → Prop}

theorem fail_follows (op : Opcode) (c : Cause) (p' : Process Machine β) :
    Follows i j k.stops (fail op c : Process Machine α) p' q := by
  rintro m m' _ a t h
  rw [start_fail] at h
  cases h

theorem onCursor_answers {p : Process Cursor α} {p' : Process Cursor β}
    (h : Follows k.related k.related k.stops p p' q) :
    k.Answers k.ready (onCursor p) (onCursor p') q :=
  h.on (fun _ _ hm => hm.cursor) fun _ _ _ _ hm hc => { hm with cursor := hc }

end

theorem chargeCopy_answers (op : Opcode) {v w : Value} (h : k.ready v w) :
    k.Answers k.ready (chargeCopy op v) (chargeCopy op w) fun _ _ => True := by
  apply Follows.get.bind
  intro m m' hm
  cases hv : v.footprint? m.allowance with
  | none => exact fail_follows _ _ _
  | some cost =>
    have hcopy := k.copy v w _ _ cost h hm.allowance hv
    cases hw : w.footprint? m'.allowance with
    | none =>
      rw [hw] at hcopy
      exact Follows.stop _ fun s => ⟨_, _, start_fail _ _ s, hcopy _ _ _⟩
    | some cost' =>
      rw [hw] at hcopy
      exact Follows.set { hm with allowance := hcopy }

theorem copyMemo_answers (op : Opcode) (index : Nat) :
    k.Answers k.ready (copyMemo op index) (copyMemo op index) (Held.Related k.ready) := by
  apply Follows.get.bind
  intro m m' hm
  have hi := hm.memo index
  revert hi
  generalize m.memo[index]? = o
  generalize m'.memo[index]? = o'
  rintro (⟨hh⟩ | _)
  · exact (chargeCopy_answers op hh.1).bind fun _ _ _ => Follows.pure hh
  · exact fail_follows _ _ _

theorem resolve_answers (op : Opcode) {s s' : Slot} (h : s.Related k.ready s') :
    k.Answers k.ready (resolve op s) (resolve op s') (Held.Related k.taken) := by
  have normal : ∀ {g g' : Held}, g.Related k.ready g' →
      Held.Related k.taken { g with value := g.value.normalize }
        { g' with value := g'.value.normalize } :=
    fun hg => ⟨k.normalize _ _ hg.1, hg.2⟩
  cases h with
  | owned hh => exact Follows.pure (normal hh)
  | memo i => exact (copyMemo_answers op i).bind fun _ _ hg => Follows.pure (normal hg)

structure Gathered (k : Coupling) (g g' : Machine.Gathered) : Prop where
  values : List.Forall₂ k.taken g.values g'.values
  depth : g.depth = g'.depth

theorem ofHeld_gathered {hs hs' : List Held} (h : List.Forall₂ (Held.Related k.taken) hs hs') :
    k.Gathered (.ofHeld hs) (.ofHeld hs') := by
  have hdepths : hs.map Held.depth = hs'.map Held.depth := by
    induction h with
    | nil => rfl
    | cons hh _ ih => rw [List.map_cons, List.map_cons, hh.2, ih]
  constructor
  · apply List.forall₂_map_left_iff.mpr
    apply List.forall₂_map_right_iff.mpr
    exact h.imp fun _ _ hh => hh.1
  · exact congrArg (fun ns : List Nat => ns.foldl max 0) hdepths

theorem resolveAll_answers (op : Opcode) {slots slots' : List Slot}
    (h : List.Forall₂ (Slot.Related k.ready) slots slots') :
    k.Answers k.ready (resolveAll op slots) (resolveAll op slots') k.Gathered :=
  (Follows.mapM h fun _ _ hs => resolve_answers op hs).bind fun _ _ hs =>
    Follows.pure (ofHeld_gathered hs)

theorem pushSlot_answers {s s' : Slot} (h : s.Related rel s')
    (hrel : ∀ v w, k.ready v w → rel v w) :
    k.Answers rel (pushSlot s) (pushSlot s') fun _ _ => True := by
  apply Follows.modify
  intro m m' hm
  have hm := hm.mono hrel
  exact { hm with stack := .cons h hm.stack }

theorem checkDepth_answers (op : Opcode) (depth : Nat) :
    k.Answers k.ready (checkDepth op depth) (checkDepth op depth) fun _ _ => True := by
  unfold checkDepth
  split
  · exact fail_follows _ _ _
  · exact Follows.pure trivial

theorem push_answers (op : Opcode) {n n' : Nat} (hn : n = n') {v w : Value} (h : k.held v w) :
    k.Answers k.held (push op n v) (push op n' w) fun _ _ => True := by
  have hlevels : levelsOver n v = levelsOver n' w := by
    rw [levelsOver, levelsOver, k.nests v w h, hn]
  unfold push
  rw [hlevels]
  exact (checkDepth_answers op _).bind fun _ _ _ =>
    pushSlot_answers (.owned ⟨h, rfl⟩) k.held_of_ready

theorem popSlot_answers (op : Opcode) :
    k.Answers k.ready (popSlot op) (popSlot op) (Slot.Related k.ready) := by
  apply Follows.get.bind
  intro m m' hm
  have hstack := hm.stack
  revert hstack
  generalize m.stack = slots
  generalize m'.stack = slots'
  rintro (_ | ⟨hs, hstack⟩)
  · exact fail_follows _ _ _
  · exact (Follows.set { hm with stack := hstack }).bind fun _ _ _ => Follows.pure hs

theorem topSlot_answers (op : Opcode) :
    k.Answers k.ready (topSlot op) (topSlot op) (Slot.Related k.ready) := by
  apply Follows.get.bind
  intro m m' hm
  have hstack := hm.stack
  revert hstack
  generalize m.stack = slots
  generalize m'.stack = slots'
  rintro (_ | ⟨hs, hstack⟩)
  · exact fail_follows _ _ _
  · exact Follows.pure hs

theorem popMark_answers (op : Opcode) :
    k.Answers k.ready (popMark op) (popMark op) (List.Forall₂ (Slot.Related k.ready)) := by
  apply Follows.get.bind
  intro m m' hm
  have hsuspended := hm.suspended
  revert hsuspended
  generalize m.suspended = segments
  generalize m'.suspended = segments'
  rintro (_ | ⟨hs, hsuspended⟩)
  · exact fail_follows _ _ _
  · exact (Follows.set { hm with stack := hs, suspended := hsuspended }).bind fun _ _ _ =>
      Follows.pure (List.forall₂_reverse_iff.mpr hm.stack)

theorem popValue_answers (op : Opcode) :
    k.Answers k.ready (popValue op) (popValue op) (Held.Related k.taken) :=
  (popSlot_answers op).bind fun _ _ hs => resolve_answers op hs

theorem popMarked_answers (op : Opcode) :
    k.Answers k.ready (popMarked op) (popMarked op) k.Gathered :=
  (popMark_answers op).bind fun _ _ hs => resolveAll_answers op hs

theorem popValues_answers (op : Opcode) (n : Nat) :
    k.Answers k.ready (popValues op n) (popValues op n) k.Gathered := by
  apply Follows.get.bind
  intro m m' hm
  have hslots := List.forall₂_take n hm.stack
  dsimp only
  rw [hslots.length_eq]
  by_cases h : (m'.stack.take n).length < n
  · simp only [h, if_true]
    exact fail_follows _ _ _
  · simp only [h, if_false]
    exact (Follows.set { hm with stack := List.forall₂_drop n hm.stack }).bind fun _ _ _ =>
      resolveAll_answers op (List.forall₂_reverse_iff.mpr hslots)

theorem Coupled.contains {m m' : Machine} (hm : k.Coupled rel m m') (i : Nat) :
    m.memo.contains i = m'.memo.contains i := by
  rw [Std.TreeMap.contains_eq_isSome_getElem?, Std.TreeMap.contains_eq_isSome_getElem?]
  have hi := hm.memo i
  revert hi
  generalize m.memo[i]? = o
  generalize m'.memo[i]? = o'
  rintro (_ | _) <;> rfl

theorem Coupled.insert {m m' : Machine} (hm : k.Coupled rel m m') (i : Nat) {g g' : Held}
    (hg : g.Related rel g') :
    k.Coupled rel { m with memo := m.memo.insert i g } { m' with memo := m'.memo.insert i g' } := by
  refine { hm with memo := fun j => ?_, size := ?_ }
  · simp only [Std.TreeMap.getElem?_insert]
    by_cases hij : compare i j = .eq
    · rw [if_pos hij, if_pos hij]
      exact .some hg
    · rw [if_neg hij, if_neg hij]
      exact hm.memo j
  · simp only [Std.TreeMap.size_insert, hm.size, hm.contains]

end Coupling

end PickledModel
