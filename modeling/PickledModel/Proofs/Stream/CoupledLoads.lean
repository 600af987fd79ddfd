import PickledModel.Proofs.Stream.CoupledValues

/-! Steps and loads of coupled machines. The second machine answers each group of
instructions, so it answers every step, and a whole load of it ends next to a load of
the first that succeeds. -/

set_option autoImplicit false

namespace PickledModel
namespace Coupling
open Process Machine

variable {k : Coupling} {op : Opcode} {i : Instruction}

theorem put_answers (op : Opcode) (index : Nat) :
    k.Answers k.ready (put op index) (put op index) fun _ _ => True := by
  have hbind : ∀ {g g' : Held}, g.Related k.ready g' → k.Answers k.ready
      ((modify fun m => { m with memo := m.memo.insert index g }) >>= fun _ => pushSlot (.memo index))
      ((modify fun m => { m with memo := m.memo.insert index g' }) >>= fun _ => pushSlot (.memo index))
      fun _ _ => True := by
    intro g g' hg
    apply Follows.bind (q := fun _ _ => True) (j := k.Coupled k.ready)
    · apply Follows.modify
      exact fun m m' hm => hm.insert index hg
    · exact fun _ _ _ => pushSlot_answers (.memo index) fun _ _ h => h
  apply (popSlot_answers op).bind
  intro s s' hs
  cases hs with
  | owned hh => exact hbind hh
  | memo source =>
    by_cases hk : source = index
    · simp only [hk, if_true]
      exact pushSlot_answers (.memo index) fun _ _ h => h
    · simp only [hk, if_false]
      exact (copyMemo_answers op source).bind fun _ _ hg => hbind hg

theorem pushMemo_answers (op : Opcode) (index : Nat) :
    k.Answers k.ready (pushMemo op index) (pushMemo op index) fun _ _ => True := by
  apply Follows.get.bind
  intro m m' hm
  rw [hm.contains]
  by_cases h : m'.memo.contains index
  · simp only [h, if_true]
    exact pushSlot_answers (.memo index) fun _ _ h => h
  · simp only [h]
    exact fail_follows _ _ _

theorem dup_answers (op : Opcode) : k.Answers k.ready (dup op) (dup op) fun _ _ => True := by
  apply (topSlot_answers op).bind
  intro s s' hs
  cases hs with
  | owned hh =>
    exact (chargeCopy_answers op hh.1).bind fun _ _ _ =>
      pushSlot_answers (.owned hh) fun _ _ h => h
  | memo i => exact pushSlot_answers (.memo i) fun _ _ h => h

theorem isEmpty_eq {α β : Type} {q : α → β → Prop} {xs : List α} {ys : List β}
    (h : List.Forall₂ q xs ys) : xs.isEmpty = ys.isEmpty := by
  cases h <;> rfl

/-- An instruction that makes no value leaves all values as ready as they were. -/
theorem move_answers (h : i.moves = true) :
    k.Answers k.ready (step k.left op i) (step k.right op i) fun _ _ => True := by
  cases i with
  | nothing | stop => exact Follows.pure trivial
  | inspect => exact (topSlot_answers op).bind fun _ _ _ => Follows.pure trivial
  | mark =>
    apply Follows.modify
    exact fun m m' hm => { hm with stack := .nil, suspended := .cons hm.stack hm.suspended }
  | pop =>
    apply Follows.get.bind
    intro m m' hm
    rw [isEmpty_eq hm.stack, isEmpty_eq hm.suspended]
    by_cases h : (m'.stack.isEmpty && !m'.suspended.isEmpty) = true
    · simp only [h, if_true]
      exact (popMark_answers op).bind fun _ _ _ => Follows.pure trivial
    · simp only [h]
      exact (popSlot_answers op).bind fun _ _ _ => Follows.pure trivial
  | popMark => exact (popMark_answers op).bind fun _ _ _ => Follows.pure trivial
  | dup => exact dup_answers op
  | get index => exact pushMemo_answers op index
  | put index => exact put_answers op index
  | memoize =>
    apply Follows.get.bind
    intro m m' hm
    rw [hm.size]
    by_cases h : m'.memo.size < 2 ^ 32
    · simp only [h, if_true]
      exact put_answers op _
    · simp only [h, if_false]
      exact fail_follows _ _ _
  | _ => cases h

theorem make_answers (h : i.makes = true) :
    k.Answers k.held (step k.left op i) (step k.right op i) fun _ _ => True := by
  cases i with
  | tuple size =>
    exact (popValues_answers op size).bind fun _ _ hg =>
      push_answers op hg.depth (k.gather .tuple _ _ hg.values)
  | gather kind =>
    exact (popMarked_answers op).bind fun _ _ hg =>
      push_answers op hg.depth (k.gather kind _ _ hg.values)
  | gatherDict =>
    exact (popMarked_answers op).bind fun _ _ hg => (pairs_answers op hg.values).bind fun _ _ he =>
      push_answers op hg.depth (k.gatherDict _ _ he)
  | stackGlobal =>
    apply (popValue_answers op).bind
    intro name name' hname
    apply (popValue_answers op).bind
    intro module_ module_' hmodule
    split
    · next m n hm hn =>
      have hm' := hmodule.1
      have hn' := hname.1
      rw [hm] at hm'
      rw [hn] at hn'
      rw [k.leaf _ _ hm', k.leaf _ _ hn']
      exact push_answers op rfl (k.bare _ rfl (Fetch.dotted_ne_empty m n))
    · exact fail_follows _ _ _
  | _ => cases h

theorem fill_answers (h : i.fills = true) :
    k.Answers k.held (step k.left op i) (step k.right op i) fun _ _ => True := by
  cases i with
  | append =>
    exact (popValue_answers op).bind fun _ _ hg =>
      extend_answers op hg.2 (.toList (.cons hg.1 .nil))
  | appends =>
    exact (popMarked_answers op).bind fun _ _ hg => extend_answers op hg.depth (.toList hg.values)
  | setItem =>
    apply (popValue_answers op).bind
    intro value value' hvalue
    apply (popValue_answers op).bind
    intro key key' hkey
    apply extend_answers op (by rw [hvalue.2, hkey.2])
    exact .toDict (.cons ⟨hkey.1, hvalue.1⟩ .nil)
  | setItems =>
    exact (popMarked_answers op).bind fun _ _ hg => (pairs_answers op hg.values).bind fun _ _ he =>
      extend_answers op hg.depth (.toDict he)
  | addItems =>
    exact (popMarked_answers op).bind fun _ _ hg => extend_answers op hg.depth (.toSet hg.values)
  | _ => cases h

theorem invoke_answers (h : i.calls = true) :
    k.Answers k.held (step k.left op i) (step k.right op i) fun _ _ => True := by
  cases i with
  | call =>
    apply (popValue_answers op).bind
    intro args args' hargs
    apply (popValue_answers op).bind
    intro callee callee' hcallee
    exact (arguments_answers op hargs.1).bind fun _ _ hitems =>
      call_answers op (by rw [hargs.2, hcallee.2]) hcallee.1 hitems
  | callWithKeywords =>
    apply (popValue_answers op).bind
    intro keywords keywords' hkeywords
    apply (popValue_answers op).bind
    intro args args' hargs
    apply (popValue_answers op).bind
    intro callee callee' hcallee
    exact (arguments_answers op hargs.1).bind fun _ _ hitems =>
      call_answers op (by rw [hkeywords.2, hargs.2, hcallee.2]) hcallee.1 hitems
  | callMarked =>
    apply (popMarked_answers op).bind
    rintro ⟨vs, d⟩ ⟨ws, d'⟩ hg
    have hvalues := hg.values
    dsimp only at hvalues ⊢
    cases hvalues with
    | nil => exact fail_follows _ _ _
    | cons hcallee hargs => exact call_answers op hg.depth hcallee hargs
  | callNamed name =>
    exact (popMarked_answers op).bind fun _ _ hg => callGlobal_answers op hg.depth name hg.values
  | _ => cases h

theorem step_answers (op : Opcode) (hi : i.Bare) :
    k.Answers k.held (step k.left op i) (step k.right op i) fun _ _ => True := by
  cases i with
  | push v => exact push_answers op rfl (k.bare v hi.1 hi.2)
  | nothing | stop | inspect | mark | pop | popMark | dup | get | put | memoize =>
    exact (move_answers rfl).weaken (fun _ _ h => h) fun _ _ hm => hm.mono k.held_of_ready
  | tuple | gather | gatherDict | stackGlobal => exact make_answers rfl
  | append | appends | setItem | setItems | addItems => exact fill_answers rfl
  | call | callWithKeywords | callMarked | callNamed => exact invoke_answers rfl
  | build => exact (popValue_answers op).bind fun _ _ hg => buildTop_answers op hg

theorem finish_answers : k.Answers k.ready finish finish k.taken := by
  apply Follows.get.bind
  intro m m' hm
  rw [isEmpty_eq hm.suspended]
  cases m'.suspended.isEmpty with
  | false =>
    have hfail : k.Answers k.ready (fail .stop .unclosedMark : Process Machine Unit)
        (fail .stop .unclosedMark : Process Machine Unit) fun _ _ => False :=
      fail_follows _ _ _
    exact hfail.bind fun _ _ h => h.elim
  | true =>
    simp only [Bool.not_true, Bool.false_eq_true, if_false]
    have hstack := hm.stack
    have hempty : k.Coupled k.ready { m with stack := [] } { m' with stack := [] } :=
      { hm with stack := .nil }
    apply (Follows.set hempty).bind
    intro _ _ _
    revert hstack
    generalize m.stack = slots
    generalize m'.stack = slots'
    rintro (_ | ⟨hs, _ | ⟨_, _⟩⟩)
    · exact Follows.throw _ _
    · exact Follows.map ((resolve_answers _ hs).weaken (fun _ _ h => h.1) fun _ _ h => h)
    · exact Follows.throw _ _

theorem perform_answers (op : Opcode) {i : Instruction} (hi : i.Bare) :
    k.Answers k.held (perform k.left op i) (perform k.right op i) (Option.Rel k.taken) := by
  have hstep : k.Answers k.held (step k.left op i >>= fun _ => pure none)
      (step k.right op i >>= fun _ => pure none) (Option.Rel k.taken) :=
    (step_answers op hi).bind fun _ _ _ => Follows.pure .none
  cases i with
  | stop =>
    apply Follows.map
    exact finish_answers.weaken (fun _ _ h => .some h) fun _ _ h => h.mono k.held_of_ready
  | _ => exact hstep

theorem next_answers :
    k.Answers k.held (next k.left) (next k.right) (Option.Rel k.taken) := by
  apply Follows.get.bind
  intro m m' hm
  rw [k.position _ _ hm.cursor]
  apply (onCursor_answers (k.composed.number UInt8.ofNat)).bind
  rintro code _ rfl
  cases Opcode.ofByte? code with
  | none => exact Follows.get.bind fun _ _ _ => Follows.throw _ _
  | some op =>
    have hfetch := (k.composed.instruction m'.cursor.position op).and_keeps
      (Fetch.instruction_bare m'.cursor.position op)
    apply (onCursor_answers hfetch).bind
    rintro i _ ⟨rfl, hi⟩
    have hperform := perform_answers (k := k) op hi
    cases i <;> exact hperform

/-- How a load ends next to a success: with a related result, or with a stop,
and then its reports are those of the success up to some point. -/
def Ends (k : Coupling) (v : Value) (t : Machine) : Except LoadError Value × Machine → Prop
  | (.ok w, t') => k.taken v w ∧ k.Coupled k.held t t'
  | (.error e, t') => k.stops e ∧ ∃ rs, rs <+: t.reports ∧ k.reports rs t'.reports

theorem Ends.stop {m m' t u' : Machine} {v : Value} {e : LoadError} (hm : k.Coupled k.held m m')
    (hfirst : m.reports <+: t.reports) (hfail : (next k.right).start m' = (.error e, u'))
    (hstops : k.stops e) : k.Ends v t (.error e, u') := by
  refine ⟨hstops, m.reports, hfirst, ?_⟩
  rw [(next_fails hfail).resolve_right (k.quiet e hstops)]
  exact hm.reports

/-- If what the first machine holds stays sound and its load succeeds, the load of
a coupled machine ends next to it. It may also run out of instructions, if it can
carry out fewer of them. -/
theorem run_answers {n n' : Nat} {m m' t : Machine} {v : Value} (hm : k.Coupled k.held m m')
    (hsound : ∀ j mj, m.after? k.left j = some mj → mj.Holds fun h => k.sound h.value)
    (hn : n ≤ n' ∨ ∀ s, k.stops (.shortage s)) (h : run k.left n m = (.ok v, t)) :
    k.Ends v t (run k.right n' m') := by
  induction n generalizing n' m m' with
  | zero => cases h
  | succ n ih =>
    have hfirst := reports_prefix_run k.left (n + 1) m
    rw [h] at hfirst
    cases n' with
    | zero =>
      have hstops := hn.resolve_left (Nat.not_succ_le_zero n)
      exact ⟨hstops _, m.reports, hfirst, hm.reports⟩
    | succ n' =>
      rw [run] at h ⊢
      rcases ho : (next k.left).start m with ⟨_ | o, u⟩ <;> rw [ho] at h
      · cases h
      have hmeets := next_answers m m' (hm.ready (hsound 0 m rfl)) _ _ ho
      rcases ho' : (next k.right).start m' with ⟨e | o', u'⟩ <;> rw [ho'] at hmeets
      · exact .stop hm hfirst ho' hmeets
      obtain ⟨⟨hvw⟩ | _, hcoupled⟩ := hmeets
      · cases h
        exact ⟨hvw, hcoupled⟩
      · apply ih hcoupled _ (hn.imp_left Nat.le_of_succ_le_succ) h
        intro j mj hj
        exact hsound (j + 1) mj (after?_succ_iff.mpr ⟨u, ho, hj⟩)

end Coupling

end PickledModel
