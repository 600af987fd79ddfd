import PickledModel.Proofs.Object.Resolution
import PickledModel.Proofs.Stream.Parts

/-! The calls of a load and its reports. Five instructions call a global, after
taking it and its arguments out of slots; no other part of a step touches the
reports, and a call adds its name if no rule resolves it. So the reports of a
load are the unresolved names of its calls, in the order of the calls. -/

set_option autoImplicit false

namespace PickledModel.Machine
open Process

structure Invocation where
  depth : Nat
  callee : Value
  args : List Value

def invocation? (op : Opcode) : Instruction → Option (Process Machine Invocation)
  | .call => some do
    let args ← popValue op
    let callee ← popValue op
    return ⟨max args.depth callee.depth, callee.value, ← arguments op args.value⟩
  | .callWithKeywords => some do
    let keywords ← popValue op
    let args ← popValue op
    let callee ← popValue op
    return ⟨max keywords.depth (max args.depth callee.depth), callee.value,
      ← arguments op args.value⟩
  | .callMarked => some do
    let g ← popMarked op
    match g.values with
    | [] => fail op .noClass
    | callee :: args => return ⟨g.depth, callee, args⟩
  | .callNamed name => some do
    let g ← popMarked op
    return ⟨g.depth, .global name, g.values⟩
  | _ => none

theorem step_eq_call {op : Opcode} {i : Instruction} {p : Process Machine Invocation}
    (h : invocation? op i = some p) (r : Registry) :
    step r op i = p >>= fun c => call r op c.depth c.callee c.args := by
  cases i with
  | call | callWithKeywords | callNamed name =>
    obtain rfl := Option.some.inj h
    simp only [step, bind_assoc, pure_bind]
  | callMarked =>
    obtain rfl := Option.some.inj h
    simp only [step, bind_assoc]
    congr 1
    funext g
    cases g.values with
    | nil => rfl
    | cons callee args => simp only [pure_bind]
  | _ => cases h

def Invocation.call? (c : Invocation) : Option (String × List Value) :=
  match c.callee with
  | .global name => some (name, c.args)
  | _ => none

def calledIn (op : Opcode) (i : Instruction) (m : Machine) : Option (String × List Value) :=
  ((invocation? op i).bind fun p => p.result? m).bind fun o => o.1.call?

def calledNext (m : Machine) : Option (String × List Value) :=
  match m.cursor.fetch? with
  | some (op, i, c) => calledIn op i { m with cursor := c }
  | none => none

def calledBy (r : Registry) : Nat → Machine → List (String × List Value)
  | 0, _ => []
  | bytes + 1, m => m.calledNext.toList ++
    match (next r).start m with
    | (.ok none, m) => calledBy r bytes m
    | _ => []

def called (r : Registry) (m : Machine) : List (String × List Value) :=
  calledBy r m.cursor.size { m with reports := [] }

/-- The calls of a run are those up to a machine that it comes to, and those from there. -/
theorem calledBy_of_after? {r : Registry} {k : Nat} {m t : Machine} (h : m.after? r k = some t)
    (n : Nat) : calledBy r (k + n) m = calledBy r k m ++ calledBy r n t := by
  induction k generalizing m with
  | zero =>
    obtain rfl := Option.some.inj h
    rw [Nat.zero_add]
    rfl
  | succ k ih =>
    obtain ⟨m₁, hn, h⟩ := after?_succ_iff.mp h
    rw [Nat.add_right_comm, calledBy, calledBy, hn]
    dsimp only
    rw [ih h, List.append_assoc]

def unknowns (r : Registry) (calls : List (String × List Value)) : List String :=
  calls.filterMap fun c => Call.unknown? r c.1 c.2

section
variable {p : Cursor → List String → Prop}

abbrev Beside (p : Cursor → List String → Prop) (m : Machine) : Prop := p m.cursor m.reports

theorem chargeCopy_beside (op : Opcode) (v : Value) :
    Keeps (Beside p) (chargeCopy op v) fun _ => True := by
  apply Keeps.get.bind
  intro m hm
  cases v.footprint? m.allowance with
  | none => exact fail_keeps _ _
  | some cost => exact Keeps.set hm

theorem copyMemo_beside (op : Opcode) (k : Nat) :
    Keeps (Beside p) (copyMemo op k) fun _ => True := by
  apply Keeps.get.bind
  intro m _
  cases m.memo[k]? with
  | none => exact fail_keeps _ _
  | some h => exact (chargeCopy_beside op h.value).bind fun _ _ => Keeps.pure trivial

theorem resolve_beside (op : Opcode) (s : Slot) :
    Keeps (Beside p) (resolve op s) fun _ => True := by
  cases s with
  | owned h => exact Keeps.pure trivial
  | memo k => exact (copyMemo_beside op k).bind fun _ _ => Keeps.pure trivial

theorem resolveAll_beside (op : Opcode) (slots : List Slot) :
    Keeps (Beside p) (resolveAll op slots) fun _ => True :=
  (Keeps.mapM fun s _ => resolve_beside op s).bind fun _ _ => Keeps.pure trivial

theorem pushSlot_beside (s : Slot) : Keeps (Beside p) (pushSlot s) fun _ => True :=
  Keeps.modify fun _ hm => hm

theorem checkDepth_beside (op : Opcode) (depth : Nat) :
    Keeps (Beside p) (checkDepth op depth) fun _ => True := by
  unfold checkDepth
  split
  · exact fail_keeps _ _
  · exact Keeps.pure trivial

theorem push_beside (op : Opcode) (n : Nat) (v : Value) :
    Keeps (Beside p) (push op n v) fun _ => True :=
  (checkDepth_beside op _).bind fun _ _ => pushSlot_beside _

theorem popSlot_beside (op : Opcode) : Keeps (Beside p) (popSlot op) fun _ => True := by
  apply Keeps.get.bind
  intro m hm
  cases m.stack with
  | nil => exact fail_keeps _ _
  | cons s stack =>
    have hset : Keeps (Beside p) _ _ := Keeps.set (s := { m with stack }) hm
    exact hset.bind fun _ _ => Keeps.pure trivial

theorem topSlot_beside (op : Opcode) : Keeps (Beside p) (topSlot op) fun _ => True := by
  apply Keeps.get.bind
  intro m _
  cases m.stack with
  | nil => exact fail_keeps _ _
  | cons s stack => exact Keeps.pure trivial

theorem popMark_beside (op : Opcode) : Keeps (Beside p) (popMark op) fun _ => True := by
  apply Keeps.get.bind
  intro m hm
  cases m.suspended with
  | nil => exact fail_keeps _ _
  | cons stack suspended =>
    have hset : Keeps (Beside p) _ _ := Keeps.set (s := { m with stack, suspended }) hm
    exact hset.bind fun _ _ => Keeps.pure trivial

theorem popValue_beside (op : Opcode) : Keeps (Beside p) (popValue op) fun _ => True :=
  (popSlot_beside op).bind fun s _ => resolve_beside op s

theorem popMarked_beside (op : Opcode) : Keeps (Beside p) (popMarked op) fun _ => True :=
  (popMark_beside op).bind fun slots _ => resolveAll_beside op slots

theorem popValues_beside (op : Opcode) (n : Nat) :
    Keeps (Beside p) (popValues op n) fun _ => True := by
  apply Keeps.get.bind
  intro m hm
  by_cases h : (m.stack.take n).length < n
  · simp only [h, if_true]
    exact fail_keeps _ _
  · simp only [h, if_false]
    have hset : Keeps (Beside p) _ _ := Keeps.set (s := { m with stack := m.stack.drop n }) hm
    exact hset.bind fun _ _ => resolveAll_beside op _

theorem cursor_mapTop (f : Held → Held) (m : Machine) : (m.mapTop f).cursor = m.cursor := by
  obtain ⟨stack, memo, hmap⟩ := mapTop_eq f m
  rw [hmap]

theorem reports_mapTop (f : Held → Held) (m : Machine) : (m.mapTop f).reports = m.reports := by
  obtain ⟨stack, memo, hmap⟩ := mapTop_eq f m
  rw [hmap]

theorem mapTop_beside (f : Held → Held) {m : Machine} (hm : Beside p m) : Beside p (m.mapTop f) := by
  rw [Beside, cursor_mapTop, reports_mapTop]
  exact hm

theorem setTarget_beside (v : Value) : Keeps (Beside p) (setTarget v) fun _ => True :=
  fun _ hm => ⟨mapTop_beside _ hm, fun _ _ => trivial⟩

theorem target_beside (op : Opcode) (n : Nat) :
    Keeps (Beside p) (target op n) fun _ => True := by
  have hdeepen : Keeps (Beside p) (deepenTop op n) fun _ => True :=
    (checkDepth_beside op _).bind fun _ _ m hm =>
      ⟨mapTop_beside _ hm, fun _ _ => trivial⟩
  apply hdeepen.bind
  intro _ _
  apply Keeps.get.bind
  intro m _
  cases m.stack with
  | nil => exact Keeps.throw _
  | cons s stack =>
    cases s with
    | owned h => exact Keeps.pure trivial
    | memo k =>
      dsimp only
      cases m.memo[k]? with
      | none => exact Keeps.throw _
      | some h => exact Keeps.pure trivial

/-- A state may come from the stream, so that the cursor moves. -/
theorem buildTop_beside (hp : ∀ c c' rs, p c rs → p c' rs) (op : Opcode) (state : Held) :
    Keeps (Beside p) (buildTop op state) fun _ => True := by
  apply (target_beside op _).bind
  intro v _
  split
  · next typeName body =>
    apply Keeps.get.bind
    intro m hm
    rcases (Body.restore typeName state.value).start (body, m.cursor) with ⟨result, body', cursor⟩
    have hset : Keeps (Beside p) _ _ := Keeps.set (s := { m with cursor }) (hp _ _ _ hm)
    exact hset.bind fun _ _ => (setTarget_beside _).bind fun _ _ =>
      (Keeps.ofExcept _).weaken fun _ _ => trivial
  · exact fail_keeps _ _

theorem put_beside (op : Opcode) (k : Nat) : Keeps (Beside p) (put op k) fun _ => True := by
  have hbind : ∀ h, Keeps (Beside p)
      ((modify fun m => { m with memo := m.memo.insert k h }) >>= fun _ => pushSlot (.memo k))
      fun _ => True := by
    intro h
    have hmemo : Keeps (Beside p) _ _ :=
      Keeps.modify (f := fun m => { m with memo := m.memo.insert k h }) fun _ hm => hm
    exact hmemo.bind fun _ _ => pushSlot_beside _
  apply (popSlot_beside op).bind
  intro s _
  cases s with
  | owned h => exact hbind h
  | memo source =>
    by_cases hk : source = k
    · simp only [hk, if_true]
      exact pushSlot_beside _
    · simp only [hk, if_false]
      exact (copyMemo_beside op source).bind fun h _ => hbind h

theorem pushMemo_beside (op : Opcode) (k : Nat) :
    Keeps (Beside p) (pushMemo op k) fun _ => True := by
  apply Keeps.get.bind
  intro m _
  by_cases h : m.memo.contains k
  · simp only [h, if_true]
    exact pushSlot_beside _
  · simp only [h]
    exact fail_keeps _ _

theorem dup_beside (op : Opcode) : Keeps (Beside p) (dup op) fun _ => True := by
  apply (topSlot_beside op).bind
  intro s _
  cases s with
  | owned h => exact (chargeCopy_beside op h.value).bind fun _ _ => pushSlot_beside _
  | memo k => exact pushSlot_beside _

theorem stepwise_beside (op : Opcode) :
    Stepwise op fun q => Keeps (Beside p) q fun _ => True where
  pure _ := Keeps.pure trivial
  bind hq hf := hq.bind fun a _ => hf a
  fail _ := fail_keeps _ _
  push := push_beside op
  target := target_beside op
  setTarget := setTarget_beside
  topSlot := topSlot_beside op
  popSlot := popSlot_beside op
  popMark := popMark_beside op
  popValue := popValue_beside op
  popMarked := popMarked_beside op
  popValues := popValues_beside op
  mark := Keeps.modify fun _ hm => hm
  look hq hq' := by
    apply Keeps.get.bind
    intro m _
    split
    · exact hq
    · exact hq'
  dup := dup_beside op
  put := put_beside op

theorem finish_beside : Keeps (Beside p) finish fun _ => True := by
  apply Keeps.get.bind
  intro m hm
  have hset : Keeps (Beside p) _ _ := Keeps.set (s := { m with stack := [] }) hm
  cases m.suspended.isEmpty with
  | false => exact (fail_keeps (q := fun _ => False) _ _).bind fun _ h => h.elim
  | true =>
    simp only [Bool.not_true, Bool.false_eq_true, if_false]
    apply hset.bind
    intro _ _
    split
    · exact Keeps.map (resolve_beside _ _)
    · exact Keeps.throw _

theorem invocation_beside {op : Opcode} {i : Instruction} {q : Process Machine Invocation}
    (h : invocation? op i = some q) : Keeps (Beside p) q fun _ => True := by
  cases i with
  | call =>
    obtain rfl := Option.some.inj h
    exact (popValue_beside op).bind fun _ _ => (popValue_beside op).bind fun _ _ =>
      ((stepwise_beside op).arguments _).bind fun _ _ => Keeps.pure trivial
  | callWithKeywords =>
    obtain rfl := Option.some.inj h
    exact (popValue_beside op).bind fun _ _ => (popValue_beside op).bind fun _ _ =>
      (popValue_beside op).bind fun _ _ =>
        ((stepwise_beside op).arguments _).bind fun _ _ => Keeps.pure trivial
  | callMarked =>
    obtain rfl := Option.some.inj h
    apply (popMarked_beside op).bind
    intro g _
    split
    · exact fail_keeps _ _
    · exact Keeps.pure trivial
  | callNamed name =>
    obtain rfl := Option.some.inj h
    exact (popMarked_beside op).bind fun _ _ => Keeps.pure trivial
  | _ => cases h

/-- An instruction that calls nothing reports nothing, and only `BUILD` reads on. -/
theorem step_beside (r : Registry) {op : Opcode} {i : Instruction} (h : invocation? op i = none)
    (hp : i = .build → ∀ c c' rs, p c rs → p c' rs) :
    Keeps (Beside p) (step r op i) fun _ => True := by
  apply (stepwise_beside op).step
  · exact fun k _ => pushMemo_beside op k
  · exact fun _ => (stepwise_beside op).memoize r fun f hf => Keeps.get.bind fun m _ => hf m
  · exact fun hi => buildTop_beside (hp hi) op
  · intro hi
    cases i with
    | call | callWithKeywords | callMarked | callNamed name => cases h
    | _ => cases hi

end

theorem invocation_reporting {op : Opcode} {i : Instruction} {q : Process Machine Invocation}
    (h : invocation? op i = some q) (m : Machine) : (q.start m).2.reports = m.reports :=
  (invocation_beside (p := fun _ reports => reports = m.reports) h m rfl).1

theorem push_reports (op : Opcode) (n : Nat) (v : Value) (m : Machine) :
    ((push op n v).start m).2.reports = m.reports :=
  (push_beside (p := fun _ reports => reports = m.reports) op n v m rfl).1

theorem finish_reporting (m : Machine) : (finish.start m).2.reports = m.reports :=
  (finish_beside (p := fun _ reports => reports = m.reports) m rfl).1

/-- An instruction that calls nothing reports nothing. -/
theorem step_reporting (r : Registry) {op : Opcode} {i : Instruction}
    (h : invocation? op i = none) (m : Machine) : ((step r op i).start m).2.reports = m.reports :=
  (step_beside (p := fun _ reports => reports = m.reports) r h (fun _ _ _ _ hrs => hrs) m rfl).1

/-- Only `BUILD` reads on. -/
theorem step_cursor {r : Registry} {op : Opcode} {i : Instruction} (hi : i ≠ .build) (m : Machine) :
    ((step r op i).start m).2.cursor = m.cursor := by
  cases h : invocation? op i with
  | none =>
    exact (step_beside (p := fun c _ => c = m.cursor) r h (fun hb => absurd hb hi) m rfl).1
  | some q =>
    rw [step_eq_call h]
    have hcall : ∀ c : Invocation, Keeps (Beside fun c _ => c = m.cursor)
        (call r op c.depth c.callee c.args) fun _ => True := by
      intro c
      unfold call
      split
      · have hreport : ∀ o : Call.Outcome, Keeps (Beside fun c _ => c = m.cursor)
            (modify fun m : Machine => { m with reports := m.reports ++ o.unresolved.toList })
            fun _ => True :=
          fun o => Keeps.modify fun _ hm => hm
        exact (Keeps.ofExcept _).bind fun o _ => (hreport o).bind fun _ _ => push_beside op _ _
      · exact fail_keeps _ _
    exact (((invocation_beside h).bind fun c _ => hcall c) m rfl).1

/-- A call adds its name to the reports if no rule resolves it. -/
theorem call_reports (r : Registry) (op : Opcode) (n : Nat) (c : Invocation) (m : Machine) :
    ((call r op n c.callee c.args).start m).2.reports =
      m.reports ++ unknowns r c.call?.toList := by
  obtain ⟨depth, callee, args⟩ := c
  dsimp only [Invocation.call?]
  unfold call
  split
  · next name =>
    have hunknown := Call.run_unresolved r name args
    rw [start_bind, start_ofExcept]
    cases hrun : Call.run r name args with
    | error e =>
      rw [hrun] at hunknown
      simp [unknowns, ← hunknown]
    | ok o =>
      rw [hrun] at hunknown
      dsimp only at hunknown ⊢
      rw [start_bind, start_modify]
      dsimp only
      rw [push_reports]
      cases ho : o.unresolved <;> simp [unknowns, ← hunknown, ho]
  · next h => simp [unknowns]

theorem step_reports (r : Registry) (op : Opcode) (i : Instruction) (m : Machine) :
    ((step r op i).start m).2.reports =
      m.reports ++ unknowns r (calledIn op i m).toList := by
  unfold calledIn
  cases hi : invocation? op i with
  | none =>
    rw [step_reporting r hi m]
    simp [unknowns]
  | some p =>
    have hquiet : (p.start m).2.reports = m.reports := invocation_reporting hi m
    rw [step_eq_call hi, start_bind, Option.bind_some]
    cases hp : p.result? m with
    | none =>
      obtain ⟨e, m', hstart⟩ := result?_eq_none_iff.mp hp
      rw [hstart] at hquiet ⊢
      simpa [unknowns] using hquiet
    | some o =>
      obtain ⟨c, m'⟩ := o
      rw [result?_eq_some_iff.mp hp] at hquiet ⊢
      dsimp only at hquiet ⊢
      rw [call_reports, hquiet, Option.bind_some]

theorem perform_reports (r : Registry) (op : Opcode) (i : Instruction) (m : Machine) :
    ((perform r op i).start m).2.reports =
      m.reports ++ unknowns r (calledIn op i m).toList := by
  by_cases hi : i = .stop
  · subst hi
    have hquiet : (finish.start m).2.reports = m.reports := finish_reporting m
    rw [perform, start_map, hquiet]
    simp [unknowns, calledIn, invocation?]
  · rw [start_perform_of_ne_stop r op hi]
    exact step_reports r op i m

/-- An instruction adds to the reports the name of the call that it makes, if no
rule resolves it. -/
theorem next_reports (r : Registry) (m : Machine) :
    ((next r).start m).2.reports = m.reports ++ unknowns r m.calledNext.toList := by
  unfold calledNext
  cases hfetch : m.cursor.fetch? with
  | none =>
    obtain ⟨e, c, hstart⟩ := start_next_of_fetch?_eq_none (r := r) hfetch
    rw [hstart]
    simp [unknowns]
  | some o =>
    obtain ⟨op, i, c⟩ := o
    rw [start_next_of_fetch? hfetch]
    exact perform_reports r op i { m with cursor := c }

def TooDeep (e : LoadError) : Prop := ∃ op offset, e = .malformed (.cause .tooDeep op offset)

theorem push_fails {op : Opcode} {n : Nat} {v : Value} {m m' : Machine} {e : LoadError}
    (h : (push op n v).start m = (.error e, m')) : TooDeep e := by
  rw [push, start_bind, start_checkDepth] at h
  by_cases hdeep : maxNesting < levelsOver n v
  · rw [if_pos hdeep] at h
    cases h
    exact ⟨_, _, rfl⟩
  · rw [if_neg hdeep] at h
    cases h

/-- Behind its report, a call can only fail because of the levels of its result. -/
theorem call_fails {r : Registry} {op : Opcode} {n : Nat} {c : Invocation} {m m' : Machine}
    {e : LoadError} (h : (call r op n c.callee c.args).start m = (.error e, m')) :
    m'.reports = m.reports ∨ TooDeep e := by
  unfold call at h
  split at h
  · next name _ =>
    rw [start_bind, start_ofExcept] at h
    cases hrun : Call.run r name c.args with
    | error e' =>
      rw [hrun] at h
      cases h
      exact .inl rfl
    | ok o =>
      rw [hrun] at h
      dsimp only at h
      rw [start_bind, start_modify] at h
      exact .inr (push_fails h)
  · rw [start_fail] at h
    cases h
    exact .inl rfl

theorem step_fails {r : Registry} {op : Opcode} {i : Instruction} {m m' : Machine} {e : LoadError}
    (h : (step r op i).start m = (.error e, m')) : m'.reports = m.reports ∨ TooDeep e := by
  cases hi : invocation? op i with
  | none =>
    have hquiet : ((step r op i).start m).2.reports = m.reports := step_reporting r hi m
    rw [h] at hquiet
    exact .inl hquiet
  | some p =>
    have hquiet : (p.start m).2.reports = m.reports := invocation_reporting hi m
    rw [step_eq_call hi, start_bind] at h
    rcases hp : p.start m with ⟨e' | c, m₁⟩ <;> rw [hp] at h hquiet
    · cases h
      exact .inl hquiet
    · exact (call_fails h).imp_left fun hreports => hreports.trans hquiet

/-- An instruction that fails has reported nothing, but for a result of too many levels. -/
theorem next_fails {r : Registry} {m m' : Machine} {e : LoadError}
    (h : (next r).start m = (.error e, m')) : m'.reports = m.reports ∨ TooDeep e := by
  cases hfetch : m.cursor.fetch? with
  | none =>
    obtain ⟨e', c, hstart⟩ := start_next_of_fetch?_eq_none (r := r) hfetch
    rw [hstart] at h
    cases h
    exact .inl rfl
  | some o =>
    obtain ⟨op, i, c⟩ := o
    rw [start_next_of_fetch? hfetch] at h
    by_cases hi : i = .stop
    · subst hi
      have hquiet : (finish.start { m with cursor := c }).2.reports = m.reports :=
        finish_reporting _
      rw [perform, start_map] at h
      have hm' := congrArg Prod.snd h
      dsimp only at hm'
      rw [← hm']
      exact .inl hquiet
    · rw [start_perform_of_ne_stop r op hi] at h
      rcases hs : (step r op i).start { m with cursor := c } with ⟨e' | u, m₁⟩ <;> rw [hs] at h
      · cases h
        exact (step_fails hs).imp_left fun hreports => hreports
      · cases h

theorem run_reports (r : Registry) (bytes : Nat) (m : Machine) :
    (run r bytes m).2.reports = m.reports ++ unknowns r (calledBy r bytes m) := by
  induction bytes generalizing m with
  | zero => simp [run, calledBy, unknowns]
  | succ bytes ih =>
    have hnext := next_reports r m
    rw [run, calledBy]
    rcases hn : (next r).start m with ⟨e | o, m'⟩
    · rw [hn] at hnext
      simpa using hnext
    · rw [hn] at hnext
      cases o with
      | none =>
        dsimp only
        rw [ih m', hnext]
        simp [unknowns]
      | some v => simpa using hnext

theorem reports_prefix_run (r : Registry) (bytes : Nat) (m : Machine) :
    m.reports <+: (run r bytes m).2.reports :=
  ⟨_, (run_reports r bytes m).symm⟩

/-- The diagnostics of a load are the unresolved names of its calls, in order. -/
theorem load_diagnostics (r : Registry) (m : Machine) :
    (m.load r).2.diagnostics = (unknowns r (m.called r)).map .unresolved := by
  rw [diagnostics, load, run_reports, called, List.nil_append]

end PickledModel.Machine
