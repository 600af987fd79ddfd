import PickledModel.Proofs.Stream.Framing
import PickledModel.Proofs.Stream.Invocation

/-! Machines that get to a place unless a limit is in the way. Taking values out of slots can
fail for nothing but the cost of the copies, and pushing one for nothing but its levels. So an
instruction that calls a global settles the call: it has the result or the error of the call. -/

set_option autoImplicit false

namespace PickledModel

def OverLimit (e : LoadError) : Prop :=
  ∃ c op offset, e = .malformed (.cause c op offset) ∧
    (c = .tooDeep ∨ ∃ limit, c = .copyLimit limit)

namespace Machine
open Process

variable {α β : Type} {op : Opcode} {r : Registry} {m t u : Machine}

def Gives (o : Except LoadError α × Machine) (a : α) (t : Machine) : Prop :=
  o = (.ok a, t) ∨ ∃ e u, OverLimit e ∧ o = (.error e, u)

theorem Gives.bind {p : Process Machine α} {f : α → Process Machine β} {a : α} {b : β}
    (hp : Gives (p.start m) a t) (hf : Gives ((f a).start t) b u) :
    Gives ((p >>= f).start m) b u := by
  rw [start_bind]
  rcases hp with hp | ⟨e, v, he, hp⟩
  · rw [hp]
    exact hf
  · rw [hp]
    exact .inr ⟨e, v, he, rfl⟩

def afforded (m : Machine) (slots : List Slot) : Machine :=
  { m with allowance := m.allowance - costs (memoized m.memo slots) }

theorem memoized_cons {s : Slot} {v : Value} (hs : m.Resolves s v) (slots : List Slot) :
    memoized m.memo (s :: slots) = memoized m.memo [s] ++ memoized m.memo slots := by
  obtain ⟨h, hheld, -⟩ := resolves_iff.mp hs
  cases s with
  | owned g => rfl
  | memo k =>
    have hk : m.memo[k]? = some h := hheld
    simp only [memoized, hk]
    rfl

theorem afforded_cons {s : Slot} {v : Value} (hs : m.Resolves s v) (slots : List Slot) :
    m.afforded (s :: slots) = (m.afforded [s]).afforded slots := by
  rw [afforded, memoized_cons hs, costs_append, ← Nat.sub_sub]
  rfl

theorem resolve_gives {s : Slot} {v : Value} (op : Opcode) (h : m.Resolves s v) :
    ∃ depth, Gives ((resolve op s).start m) ⟨v, depth⟩ (m.afforded [s]) := by
  obtain ⟨g, hg, rfl⟩ := resolves_iff.mp h
  refine ⟨g.depth, ?_⟩
  cases s with
  | owned h =>
    cases hg
    exact .inl rfl
  | memo k =>
    have hk : m.memo[k]? = some g := hg
    rw [start_resolve_memo]
    have hcosts : costs (memoized m.memo [.memo k]) = g.value.cost := by
      simp only [memoized, hk]
      rfl
    simp only [hk, Value.footprint?_eq, afforded, hcosts]
    by_cases hcost : g.value.cost ≤ m.allowance
    · rw [if_pos hcost]
      exact .inl rfl
    · rw [if_neg hcost]
      exact .inr ⟨_, _, ⟨_, _, _, rfl, .inr ⟨_, rfl⟩⟩, rfl⟩

/-- What a slot stands for is settled by the memo. -/
theorem resolves_of_memo (h : t.memo = m.memo) (s : Slot) (v : Value) :
    t.Resolves s v ↔ m.Resolves s v := by
  apply resolves_congr
  cases s with
  | owned g => rfl
  | memo k => exact congrArg (·[k]?) h

theorem mapM_resolve_gives {slots : List Slot} {values : List Value} (op : Opcode)
    (h : List.Forall₂ m.Resolves slots values) : ∀ t : Machine, t.memo = m.memo →
      ∃ hs : List Held, hs.map Held.value = values ∧
        Gives ((slots.mapM (resolve op)).start t) hs (t.afforded slots) := by
  -- each slot that is paid for leaves another machine for the rest, with the same memo
  induction h with
  | nil => exact fun t _ => ⟨[], rfl, .inl rfl⟩
  | @cons s v slots values hs _ ih =>
    intro t ht
    have hs' : t.Resolves s v := (resolves_of_memo ht s v).mpr hs
    obtain ⟨depth, hfirst⟩ := resolve_gives op hs'
    obtain ⟨hs, rfl, hrest⟩ := ih (t.afforded [s]) ht
    refine ⟨⟨v, depth⟩ :: hs, rfl, ?_⟩
    rw [List.mapM_cons, afforded_cons hs']
    exact hfirst.bind (hrest.bind (.inl rfl))

theorem resolveAll_gives {slots : List Slot} {values : List Value} (op : Opcode)
    (h : List.Forall₂ m.Resolves slots values) (ht : t.memo = m.memo) :
    ∃ depth, Gives ((resolveAll op slots).start t) ⟨values, depth⟩ (t.afforded slots) := by
  obtain ⟨hs, rfl, hgives⟩ := mapM_resolve_gives op h t ht
  exact ⟨_, hgives.bind (.inl rfl)⟩

theorem push_gives (op : Opcode) (inner : Nat) (v : Value) (m : Machine) :
    Gives ((push op inner v).start m) ()
      { m with stack := .owned ⟨v, levelsOver inner v⟩ :: m.stack } := by
  by_cases h : levelsOver inner v ≤ maxNesting
  · exact .inl (start_push m h)
  · refine .inr ⟨_, m, ⟨.tooDeep, op, m.cursor.position, rfl, .inl rfl⟩, ?_⟩
    rw [push, start_bind, start_checkDepth, if_pos (Nat.not_le.mp h)]

section
variable {slots : List Slot} {values : List Value}

theorem popValue_gives {s : Slot} {v : Value} {stack : List Slot} (op : Opcode)
    (h : m.Resolves s v) (ht : t.memo = m.memo) (hs : t.stack = s :: stack) :
    ∃ depth, Gives ((popValue op).start t) ⟨v, depth⟩ (afforded { t with stack } [s]) := by
  have hv : Resolves { t with stack } s v := (resolves_of_memo (t := { t with stack }) ht s v).mpr h
  obtain ⟨depth, hgives⟩ := resolve_gives op hv
  refine ⟨depth, ?_⟩
  rw [popValue, start_bind, start_popSlot op _ _ _ hs]
  exact hgives

theorem popMarked_gives (op : Opcode) (h : List.Forall₂ m.Resolves slots values)
    (ht : t.memo = m.memo) (stack : List Slot) (suspended : List (List Slot)) :
    ∃ depth, Gives ((popMarked op).start (onto slots.reverse (stack :: suspended) t))
      ⟨values, depth⟩ (onto stack suspended (t.afforded slots)) := by
  have hpop := start_popMark op stack suspended (onto slots.reverse (stack :: suspended) t) rfl
  obtain ⟨depth, hgives⟩ := resolveAll_gives (t := onto stack suspended t) op h ht
  refine ⟨depth, ?_⟩
  rw [popMarked, start_bind, hpop]
  simp only [onto, List.reverse_reverse]
  exact hgives

theorem popValues_gives (op : Opcode) (h : List.Forall₂ m.Resolves slots values)
    (ht : t.memo = m.memo) (stack : List Slot) (suspended : List (List Slot)) :
    ∃ depth, Gives ((popValues op slots.length).start (onto (slots.reverse ++ stack) suspended t))
      ⟨values, depth⟩ (onto stack suspended (t.afforded slots)) := by
  obtain ⟨depth, hgives⟩ := resolveAll_gives (t := onto stack suspended t) op h ht
  refine ⟨depth, ?_⟩
  have htake : (slots.reverse ++ stack).take slots.length = slots.reverse :=
    List.take_left' List.length_reverse
  have hdrop : (slots.reverse ++ stack).drop slots.length = stack :=
    List.drop_left' List.length_reverse
  simp only [popValues, start_bind, start_get, onto, htake, hdrop, List.length_reverse,
    List.reverse_reverse, Nat.lt_irrefl, if_false, start_set]
  exact hgives

end

def Leads (r : Registry) (m t : Machine) : Prop := ∃ k, m.after? r k = some t

theorem Leads.trans (h : Leads r m t) (h' : Leads r t u) : Leads r m u := by
  obtain ⟨k, hk⟩ := h
  obtain ⟨n, hn⟩ := h'
  exact ⟨k + n, by rw [after?_add hk, hn]⟩

theorem Leads.next (h : (next r).start m = (.ok none, t)) : Leads r m t := by
  refine ⟨1, ?_⟩
  rw [after?, h]
  rfl

theorem Leads.size_le (h : Leads r m t) : t.cursor.size ≤ m.cursor.size := by
  obtain ⟨k, hk⟩ := h
  obtain ⟨used, _, hpaid, -⟩ := after?_carried hk
  rw [Cursor.size, Cursor.size, hpaid.bytes.rest, List.length_append]
  exact Nat.le_add_left _ _

theorem Supplies.leads {data : Bytes} {slots : List Slot} (h : Supplies r data slots m t)
    (stack : List Slot) (suspended : List (List Slot)) (p : Nat) (rest : Bytes) :
    Leads r ((onto stack suspended m).facing p (data ++ rest))
      ((onto (slots.reverse ++ stack) suspended t).facing (p + data.length) rest) :=
  h.anywhere stack suspended p rest

def Fails (r : Registry) (left : Nat) (m : Machine) (e : LoadError) (reports : List String) :
    Prop :=
  ∃ t u, Leads r m t ∧ left < t.cursor.size ∧ (next r).start t = (.error e, u) ∧
    u.reports = reports

theorem Leads.fails {left : Nat} {e : LoadError} {reports : List String} (h : Leads r m t)
    (h' : Fails r left t e reports) : Fails r left m e reports := by
  obtain ⟨u, v, hu, hnext⟩ := h'
  exact ⟨u, v, h.trans hu, hnext⟩

def HitsLimit (r : Registry) (left : Nat) (m : Machine) : Prop :=
  ∃ e reports, OverLimit e ∧ Fails r left m e reports

theorem Leads.hitsLimit {left : Nat} (h : Leads r m t) (h' : HitsLimit r left t) :
    HitsLimit r left m := by
  obtain ⟨e, reports, he, hfails⟩ := h'
  exact ⟨e, reports, he, h.fails hfails⟩

theorem HitsLimit.weaken {left less : Nat} (h : HitsLimit r left m) (hle : less ≤ left) :
    HitsLimit r less m := by
  obtain ⟨e, reports, he, u, v, hu, hsize, hnext⟩ := h
  exact ⟨e, reports, he, u, v, hu, Nat.lt_of_le_of_lt hle hsize, hnext⟩

def Reaches (r : Registry) (m t : Machine) : Prop := Leads r m t ∨ HitsLimit r t.cursor.size m

theorem Reaches.trans (h : Reaches r m t) (h' : Reaches r t u) : Reaches r m u := by
  have hsize : u.cursor.size ≤ t.cursor.size := by
    rcases h' with h' | ⟨-, -, -, v, -, hv, hlt, -⟩
    · exact h'.size_le
    · exact Nat.le_trans (Nat.le_of_lt hlt) hv.size_le
  rcases h with h | h
  · exact h'.imp h.trans h.hitsLimit
  · exact .inr (h.weaken hsize)

def Settles (r : Registry) (result : Except LoadError Call.Outcome) (m t : Machine) : Prop :=
  HitsLimit r t.cursor.size m ∨
    match result with
    | .ok o => ∃ depth allowance, Leads r m { t with
        stack := .owned ⟨o.value, depth⟩ :: t.stack
        reports := t.reports ++ o.unresolved.toList
        allowance }
    | .error e => Fails r t.cursor.size m e t.reports

theorem Leads.settles {result : Except LoadError Call.Outcome} (h : Leads r m t)
    (h' : Settles r result t u) : Settles r result m u := by
  refine h'.imp h.hitsLimit ?_
  intro h'
  cases result with
  | ok o =>
    obtain ⟨depth, allowance, hleads⟩ := h'
    exact ⟨depth, allowance, h.trans hleads⟩
  | error e => exact h.fails h'

theorem Reaches.settles {result : Except LoadError Call.Outcome} (h : Reaches r m t)
    (h' : Settles r result t u) (hsize : u.cursor.size ≤ t.cursor.size) :
    Settles r result m u := by
  rcases h with h | h
  · exact h.settles h'
  · exact .inl (h.weaken hsize)

/-- The copies that were paid for make no difference. -/
theorem Settles.of_allowance {result : Except LoadError Call.Outcome} (allowance : Nat)
    (h : Settles r result m { t with allowance }) : Settles r result m t := h

section
variable {i : Instruction} {p q : Nat} {rest : Bytes} (operands : Bytes)

/-- An instruction that fails does so with its operands left. -/
theorem fails_of_step {e : LoadError}
    (hi : (Fetch.instruction p op).start ⟨p + 1, operands ++ rest⟩ = (.ok i, ⟨q, rest⟩))
    (hs : i ≠ .stop) (h : (step r op i).start (m.facing q rest) = (.error e, u)) :
    Fails r rest.length (m.facing p (op.code :: (operands ++ rest))) e u.reports := by
  have hnext := start_next (r := r) m hi hs
  rw [h] at hnext
  refine ⟨_, u, ⟨0, rfl⟩, ?_, hnext, rfl⟩
  simp only [facing, Cursor.size, List.length_cons, List.length_append]
  omega

/-- An instruction that gives a machine leads there, unless it is refused at a limit. -/
theorem reaches_of_gives
    (hi : (Fetch.instruction p op).start ⟨p + 1, operands ++ rest⟩ = (.ok i, ⟨q, rest⟩))
    (hs : i ≠ .stop) (h : Gives ((step r op i).start (m.facing q rest)) () (t.facing q rest)) :
    Reaches r (m.facing p (op.code :: (operands ++ rest))) (t.facing q rest) := by
  rcases h with h | ⟨e, u, he, h⟩
  · have hnext := start_next (r := r) m hi hs
    rw [h] at hnext
    exact .inl (.next hnext)
  · exact .inr ⟨e, u.reports, he, fails_of_step operands hi hs h⟩

/-- An instruction that takes a global and its arguments settles the call. -/
theorem settles_of_invocation (depth : Nat) {name : String} {args : List Value}
    {take : Process Machine Invocation}
    (hi : (Fetch.instruction p op).start ⟨p + 1, operands ++ rest⟩ = (.ok i, ⟨q, rest⟩))
    (htake : invocation? op i = some take)
    (h : Gives (take.start (m.facing q rest)) ⟨depth, .global name, args⟩ (t.facing q rest)) :
    Settles r (Call.run r name args) (m.facing p (op.code :: (operands ++ rest)))
      (t.facing q rest) := by
  have hs : i ≠ .stop := by
    rintro rfl
    cases htake
  -- what takes the operands may stop at a limit, and so may the push of a result
  have hstep := step_eq_call htake r
  cases hrun : Call.run r name args with
  | error e =>
    have hcall : (call r op depth (.global name) args).start (t.facing q rest) =
        (.error e, t.facing q rest) := by
      simp only [call, start_bind, hrun, start_ofExcept]
    rcases h with h | ⟨e', u, he, h⟩
    · right
      have hfails : (step r op i).start (m.facing q rest) = (.error e, t.facing q rest) := by
        rw [hstep, start_bind, h]
        exact hcall
      exact fails_of_step operands hi hs hfails
    · left
      have hfails : (step r op i).start (m.facing q rest) = (.error e', u) := by
        rw [hstep, start_bind, h]
      exact ⟨e', u.reports, he, fails_of_step operands hi hs hfails⟩
  | ok o =>
    have hcall : Gives ((call r op depth (.global name) args).start (t.facing q rest)) ()
        ({ t with
          stack := .owned ⟨o.value, levelsOver depth o.value⟩ :: t.stack
          reports := t.reports ++ o.unresolved.toList }.facing q rest) := by
      simp only [call, start_bind, hrun, start_ofExcept, start_modify]
      exact push_gives op depth o.value _
    have hgives := h.bind (f := fun c => call r op c.depth c.callee c.args) hcall
    rw [← hstep] at hgives
    rcases reaches_of_gives operands hi hs hgives with hleads | hlimit
    · exact .inr ⟨_, _, hleads⟩
    · exact .inl hlimit

end

end Machine

end PickledModel
