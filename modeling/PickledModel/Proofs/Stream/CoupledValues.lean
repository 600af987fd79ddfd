import PickledModel.Proofs.Stream.Coupling

/-! What coupled machines do with the values that they took: they change the uppermost
value, pair entries, call a global or give an object a state, and stay coupled. -/

set_option autoImplicit false

namespace PickledModel
namespace Coupling
open Process Machine

variable {k : Coupling} {rel : Value → Value → Prop} {op : Opcode}

theorem modifyTop_answers {f f' : Held → Held} (hrel : ∀ v w, k.ready v w → rel v w)
    (hf : ∀ g g', Held.Related k.ready g g' → Held.Related rel (f g) (f' g')) :
    k.Answers rel (modifyTop f) (modifyTop f') fun _ _ => True := by
  apply Follows.modify
  intro m m' hm
  change k.Coupled rel (m.mapTop f) (m'.mapTop f')
  have hmono := hm.mono hrel
  have hstack := hm.stack
  have hstack' := hmono.stack
  rcases hs : m.stack with _ | ⟨s, stack⟩ <;> rcases hs' : m'.stack with _ | ⟨s', stack'⟩ <;>
    rw [hs, hs'] at hstack hstack'
  · rwa [mapTop_nil f hs, mapTop_nil f' hs']
  · cases hstack
  · cases hstack
  · obtain _ | ⟨hss, -⟩ := hstack
    obtain _ | ⟨-, hrest⟩ := hstack'
    cases hss with
    | owned hh =>
      rw [mapTop_owned f hs, mapTop_owned f' hs']
      exact { hmono with stack := .cons (.owned (hf _ _ hh)) hrest }
    | memo i =>
      have hi := hm.memo i
      rcases mapTop_memo f hs with ⟨g, hg, hmap⟩ | ⟨hg, hmap⟩ <;>
        rcases mapTop_memo f' hs' with ⟨g', hg', hmap'⟩ | ⟨hg', hmap'⟩ <;>
        rw [hg, hg'] at hi <;> rw [hmap, hmap']
      · cases hi with
        | some hh => exact hmono.insert i (hf _ _ hh)
      · cases hi
      · cases hi
      · exact hmono

theorem setTarget_answers {v w : Value} (h : k.held v w) :
    k.Answers k.held (setTarget v) (setTarget w) fun _ _ => True :=
  modifyTop_answers k.held_of_ready fun _ _ hg => ⟨h, hg.2⟩

theorem target_answers (op : Opcode) {n n' : Nat} (hn : n = n') :
    k.Answers k.ready (target op n) (target op n') k.ready := by
  subst hn
  have hdeepen : k.Answers k.ready (deepenTop op n) (deepenTop op n) fun _ _ => True :=
    (checkDepth_answers op _).bind fun _ _ _ =>
      modifyTop_answers (fun _ _ h => h) fun _ _ hg => ⟨hg.1, by rw [hg.2]⟩
  apply hdeepen.bind
  intro _ _ _
  apply Follows.get.bind
  intro m m' hm
  have hstack := hm.stack
  revert hstack
  generalize m.stack = slots
  generalize m'.stack = slots'
  rintro (_ | ⟨hs, hstack⟩)
  · exact Follows.throw _ _
  · cases hs with
    | owned hh => exact Follows.pure hh.1
    | memo i =>
      have hi := hm.memo i
      dsimp only
      revert hi
      generalize m.memo[i]? = o
      generalize m'.memo[i]? = o'
      rintro (⟨hh⟩ | _)
      · exact Follows.pure hh.1
      · exact Follows.throw _ _

theorem extend_answers (op : Opcode) {n n' : Nat} (hn : n = n') {a b : Addition Value}
    (h : a.Related k.taken b) :
    k.Answers k.held (Machine.extend op n a) (Machine.extend op n' b) fun _ _ => True := by
  apply (target_answers op hn).bind
  intro v w hvw
  cases hv : v.extend? a with
  | none => exact fail_follows _ _ _
  | some v' =>
    obtain ⟨w', hw, hheld⟩ := k.extend _ _ _ _ _ hvw h (Value.extend?_eq_some_iff.mp hv)
    rw [Value.extend?_eq_some_iff.mpr hw]
    exact setTarget_answers hheld

abbrev EntriesTaken (k : Coupling) (es fs : List (Value × Value)) : Prop :=
  List.Forall₂ (fun e e' => k.taken e.1 e'.1 ∧ k.taken e.2 e'.2) es fs

theorem pairsOnto?_taken {done done' es : List (Value × Value)} {vs ws : List Value}
    (hd : k.EntriesTaken done done') (h : List.Forall₂ k.taken vs ws)
    (hes : pairsOnto? done vs = some es) :
    ∃ fs, pairsOnto? done' ws = some fs ∧ k.EntriesTaken es fs := by
  induction done, vs using pairsOnto?.induct generalizing done' ws with
  | case1 done =>
    cases h
    obtain rfl := Option.some.inj hes
    exact ⟨_, rfl, List.forall₂_reverse_iff.mpr hd⟩
  | case2 done key value vs ih =>
    cases h with
    | @cons _ key' _ _ hkey h =>
      cases h with
      | @cons _ value' _ _ hvalue hvs =>
        have hd' : k.EntriesTaken ((key, value) :: done) ((key', value') :: done') :=
          .cons ⟨hkey, hvalue⟩ hd
        rw [pairsOnto?]
        exact ih hd' hvs hes
  | case3 => cases hes

theorem pairs_answers (op : Opcode) {vs ws : List Value} (h : List.Forall₂ k.taken vs ws) :
    k.Answers k.ready (pairs op vs) (pairs op ws) k.EntriesTaken := by
  unfold pairs
  cases hes : pairsOnto? [] vs with
  | none => exact fail_follows _ _ _
  | some es =>
    obtain ⟨fs, hfs, hef⟩ := pairsOnto?_taken .nil h hes
    rw [hfs]
    exact Follows.pure hef

theorem arguments_answers (op : Opcode) {v w : Value} (h : k.taken v w) :
    k.Answers k.ready (arguments op v) (arguments op w) (List.Forall₂ k.taken) := by
  unfold arguments
  cases hi : v.items? with
  | none => exact fail_follows _ _ _
  | some vs =>
    obtain ⟨ws, hws, hvw⟩ := k.items v w vs h hi
    rw [hws]
    exact Follows.pure hvw

/-- A call of a global, by a name that was taken or that the instruction gives. -/
theorem callGlobal_answers (op : Opcode) {n n' : Nat} (hn : n = n') (name : String)
    {args args' : List Value} (hargs : List.Forall₂ k.taken args args') :
    k.Answers k.held (Machine.call k.left op n (.global name) args)
      (Machine.call k.right op n' (.global name) args') fun _ _ => True := by
  apply Follows.bind (q := fun o o' => k.held o.value o'.value ∧ ∀ rs rs', k.reports rs rs' →
    k.reports (rs ++ o.unresolved.toList) (rs' ++ o'.unresolved.toList))
  · apply Follows.ofExcept
    intro o ho
    exact k.call name args args' o hargs ho
  · rintro o o' ⟨hvalue, hreports⟩
    apply Follows.bind (q := fun _ _ => True) (j := k.Coupled k.ready)
    · apply Follows.modify
      intro m m' hm
      exact { hm with reports := hreports _ _ hm.reports }
    · exact fun _ _ _ => push_answers op hn hvalue

theorem call_answers (op : Opcode) {n n' : Nat} (hn : n = n') {callee callee' : Value}
    {args args' : List Value} (hcallee : k.taken callee callee')
    (hargs : List.Forall₂ k.taken args args') :
    k.Answers k.held (Machine.call k.left op n callee args)
      (Machine.call k.right op n' callee' args') fun _ _ => True := by
  by_cases h : ∃ name, callee = .global name
  · obtain ⟨name, rfl⟩ := h
    obtain rfl := k.leaf _ _ hcallee
    exact callGlobal_answers op hn name hargs
  · unfold Machine.call
    split
    · exact absurd ⟨_, rfl⟩ h
    · exact fail_follows _ _ _

theorem start_rebuilt {m₁ : Machine} {v : Value} {r : Except LoadError Unit} (m : Machine) :
    (do
      set m₁
      setTarget v
      Process.ofExcept r : Process Machine Unit).start m =
      (r, m₁.mapTop fun h => { h with value := v }) := by
  simp only [start_bind, start_set, setTarget, start_modifyTop, start_ofExcept]

theorem buildTop_answers (op : Opcode) {state state' : Held}
    (h : Held.Related k.taken state state') :
    k.Answers k.held (buildTop op state) (buildTop op state') fun _ _ => True := by
  apply (target_answers op h.2).bind
  intro v w hvw
  split
  · next typeName body =>
    obtain ⟨body', rfl, hrestore⟩ := k.restore _ _ _ _ _ hvw h.1
    apply Follows.get.bind
    intro m m' hm
    have hmeets := hrestore (body, m.cursor) (body', m'.cursor) ⟨rfl, rfl, hm.cursor⟩
    rcases ho : (Body.restore typeName state.value).start (body, m.cursor) with ⟨e | u, b, c⟩
    · rintro _ _ - a t hstart
      rw [start_rebuilt] at hstart
      cases hstart
    · have hmeets := hmeets u (b, c) ho
      rcases ho' : (Body.restore typeName state'.value).start (body', m'.cursor) with ⟨e | u', b', c'⟩ <;>
        rw [ho'] at hmeets
      · apply Follows.stop
        intro s
        exact ⟨e, _, start_rebuilt s, hmeets⟩
      · obtain ⟨-, hheld, hc⟩ := hmeets
        have hcursor : k.Coupled k.ready { m with cursor := c } { m' with cursor := c' } :=
          { hm with cursor := hc }
        apply (Follows.set hcursor).bind
        intro _ _ _
        exact (setTarget_answers hheld).bind fun _ _ _ => Follows.ofExcept fun _ _ => ⟨_, rfl, trivial⟩
  · exact fail_follows _ _ _
end Coupling

end PickledModel
