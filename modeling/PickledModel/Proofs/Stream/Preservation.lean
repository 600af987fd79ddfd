import Mathlib.Algebra.Ring.Int.Defs
import Mathlib.Algebra.Ring.Nat
import PickledModel.Proofs.Stream.Invocation

/-! A property of what a machine holds is kept by a step if it is kept where values
are made or changed, and the results of calls have it. What a step makes or changes is
made of bare values and of what it took out of slots. -/

set_option autoImplicit false

namespace PickledModel

variable {p : Held → Prop}

structure Kept (p : Held → Prop) : Prop where
  make : ∀ (n : Nat) (v : Value), v.Ordinary → (∀ c ∈ v.children, Inside (Taken p n) c) →
    Machine.levelsOver n v ≤ maxNesting → p ⟨v, Machine.levelsOver n v⟩
  deepen : ∀ (n : Nat) (h : Held), p h → n + 1 ≤ maxNesting →
    p { h with depth := max h.depth (n + 1) }
  extend : ∀ (n : Nat) (h : Held) (v : Value), p h → n + 1 ≤ maxNesting → n + 1 ≤ h.depth →
    v.Ordinary → (∀ c ∈ v.children, Inside (fun u => u ∈ h.value.children ∨ Taken p n u) c) →
    p ⟨v, h.depth⟩
  restore : ∀ (n depth : Nat) (typeName : String) (body : Body Value) (state : Value) (c : Cursor),
    p ⟨.object typeName body, depth⟩ → n + 1 ≤ maxNesting → n + 1 ≤ depth → Taken p n state →
    p ⟨.object typeName ((Body.restore typeName state).start (body, c)).2.1, depth⟩

def Named (p : Held → Prop) (n : Nat) (name : String) : Prop :=
  name ≠ "" ∨ Inside (Taken p n) (.global name)

def Admits (p : Held → Prop) (r : Registry) (reports : List String) : Prop :=
  ∀ (n : Nat) (name : String) (args : List Value) (o : Call.Outcome), Named p n name →
    (∀ v ∈ args, Inside (Taken p n) v) → Call.run r name args = .ok o →
    o.unresolved.toList ⊆ reports → Machine.levelsOver n o.value ≤ maxNesting →
    p ⟨o.value, Machine.levelsOver n o.value⟩

def Grants (p : Held → Prop) (r : Registry) (call : String × List Value) : Prop :=
  ∀ (n : Nat) (o : Call.Outcome), Named p n call.1 → (∀ v ∈ call.2, Inside (Taken p n) v) →
    Call.run r call.1 call.2 = .ok o → Machine.levelsOver n o.value ≤ maxNesting →
    p ⟨o.value, Machine.levelsOver n o.value⟩

theorem Admits.grants {r : Registry} {reports : List String} (h : Admits p r reports)
    {calls : List (String × List Value)} (hcalls : Machine.unknowns r calls ⊆ reports) :
    ∀ call ∈ calls, Grants p r call := by
  rintro ⟨name, args⟩ hcall n o hname hargs hrun hn
  refine h n name args o hname hargs hrun (fun unknown hu => hcalls ?_) hn
  have hunresolved := Call.run_unresolved r name args
  rw [hrun] at hunresolved
  exact List.mem_filterMap.mpr ⟨_, hcall, hunresolved.symm.trans (Option.mem_toList.mp hu)⟩

structure Upheld (p : Held → Prop) : Prop where
  kept : Kept p
  admits : ∀ r reports, Admits p r reports

theorem Closed.upheld (hc : Closed p) : Upheld p where
  kept :=
    { make := fun n v _ hv hn => hc.make n v hv hn
      deepen := fun n h hp hn => hc.change n h h.value hp hn fun _ hd => .base (.inl hd)
      extend := by
        intro n h v hp hn hd _ hv
        have hchange := hc.change n h v hp hn hv
        rwa [Nat.max_eq_left hd] at hchange
      restore := by
        intro n depth typeName body state c hp hn hd hs
        have hparts : ∀ c ∈ body.children, Inside (fun u => u ∈ body.children ∨ Taken p n u) c :=
          fun c hcm => .base (.inl hcm)
        have hrestored := (Body.restore_contents (inside_hereditary _) typeName (.base (.inr hs))
          (body, c) hparts).1
        have hchange := hc.change n _ (.object typeName _) hp hn hrestored
        rwa [Nat.max_eq_left hd] at hchange }
  admits _ _ _ _ _ _ _ hargs hrun _ hn :=
    hc.make _ _ (Call.run_contents (inside_hereditary _) hargs hrun) hn

abbrev Held.Throughout (q : Value → Prop) (h : Held) : Prop := h.value.Throughout q

namespace Value.Stable

variable {q : Value → Prop} {n : Nat}

theorem taken (hq : Stable q) {v : Value} (h : Taken (Held.Throughout q) n v) : v.Throughout q := by
  obtain ⟨g, hg, -, rfl⟩ := h
  exact hq.normalize hg

theorem inside (hq : Stable q) {v : Value} (h : Inside (Taken (Held.Throughout q) n) v) :
    v.Throughout q :=
  h.least hq.hereditary fun _ => hq.taken

theorem kept (hq : Stable q) : Kept (Held.Throughout q) where
  make _ v hv hparts _ := .intro (hq.ordinary v hv) fun c hc => hq.inside (hparts c hc)
  deepen _ _ h _ := h
  extend _ h v hp _ _ hv hparts := by
    constructor
    · exact hq.ordinary v hv
    · intro c hc
      apply (hparts c hc).least hq.hereditary
      rintro u (hu | hu)
      · exact hp.inside u hu
      · exact hq.taken hu
  restore _ _ _ _ _ c hp _ _ hs := hq.restored c hp (hq.taken hs)

/-- Calls give values with a property throughout if they give values with it. -/
theorem admits (hq : Stable q) {r : Registry} {reports : List String}
    (hcall : ∀ (name : String) (args : List Value) (o : Call.Outcome),
      name ≠ "" ∨ q (.global name) → (∀ v ∈ args, q v) → Call.run r name args = .ok o →
      o.unresolved.toList ⊆ reports → q o.value) :
    Admits (Held.Throughout q) r reports := by
  intro n name args o hname hargs hrun ho _
  have hargs' : ∀ v ∈ args, v.Throughout q := fun v hv => hq.inside (hargs v hv)
  constructor
  · apply hcall name args o _ (fun v hv => (hargs' v hv).here) hrun ho
    exact hname.imp_right fun h => (hq.inside h).here
  · exact Call.run_contents hq.hereditary hargs' hrun

/-- A property is upheld if objects have it when they are made, known or not. -/
theorem upheld (hq : Stable q)
    (hmake : ∀ (typeName : String) (b : Builder) (args : List Value) (body : Body Value),
      b.make args = .ok body → q (.object typeName body))
    (hunresolved : ∀ typeName, q (.object typeName .unresolved)) :
    Upheld (Held.Throughout q) where
  kept := hq.kept
  admits r reports := by
    apply hq.admits
    intro name args o _ _ hrun _
    rcases Call.run_cases hrun with
      ⟨i, ho⟩ | ⟨name', b, hb⟩ | ⟨typeName, b, body, hb, ho⟩ | ⟨typeName, ho⟩
    · rw [ho]
      exact hq.ordinary _ trivial
    · exact hq.ordinary _ (Call.Builtin.apply_ordinary hb)
    · rw [ho]
      exact hmake typeName b _ body hb
    · rw [ho]
      exact hunresolved typeName

end Value.Stable

namespace Machine
open Process

theorem pushMade_keeps (hk : Kept p) {op : Opcode} {n : Nat} {v : Value} (hv : v.Ordinary)
    (h : ∀ c ∈ v.children, Inside (Taken p n) c) :
    Keeps (Holds p) (push op n v) fun _ => True :=
  Machine.push_keeps fun hd => hk.make n v hv h hd

abbrev deepened (n : Nat) (m : Machine) : Machine :=
  m.mapTop fun h => { h with depth := max h.depth (n + 1) }

theorem start_deepenTop (op : Opcode) (n : Nat) (m : Machine) :
    (deepenTop op n).start m =
      if maxNesting < n + 1 then (.error (.malformed (.cause .tooDeep op m.cursor.position)), m)
      else (.ok (), m.deepened n) := by
  rw [deepenTop, start_bind, start_checkDepth]
  by_cases h : maxNesting < n + 1
  · rw [if_pos h, if_pos h]
  · rw [if_neg h, if_neg h]
    exact start_modifyTop _ m

theorem start_target (op : Opcode) {n : Nat} (m : Machine) (h : n + 1 ≤ maxNesting) :
    (∃ g, (m.deepened n).top? = some g ∧
      (target op n).start m = (.ok g.value, m.deepened n)) ∨
    (m.deepened n).top? = none ∧ ∃ e, (target op n).start m = (.error e, m.deepened n) := by
  rw [target, start_bind, start_deepenTop, if_neg (Nat.not_lt.mpr h)]
  simp only [start_bind, start_get]
  generalize m.deepened n = m
  have htop : m.top? = m.stack.head?.bind m.held? := rfl
  rw [htop]
  cases hs : m.stack with
  | nil => exact .inr ⟨rfl, _, rfl⟩
  | cons s stack =>
    cases s with
    | owned g => exact .inl ⟨g, rfl, rfl⟩
    | memo k =>
      change (∃ g, m.memo[k]? = some g ∧ _) ∨ m.memo[k]? = none ∧ _
      dsimp only
      cases m.memo[k]? with
      | none => exact .inr ⟨rfl, _, rfl⟩
      | some g => exact .inl ⟨g, rfl, rfl⟩

theorem Holds.deepened (hk : Kept p) {m : Machine} {n : Nat} (hm : m.Holds p)
    (h : n + 1 ≤ maxNesting) : (m.deepened n).Holds p :=
  hm.mapTop fun g hg => hk.deepen n g (hm.top hg) h

theorem start_target_top {op : Opcode} {n : Nat} {g : Held} {m : Machine} (h : n + 1 ≤ maxNesting)
    (hg : m.top? = some g) : (target op n).start m = (.ok g.value, m.deepened n) := by
  have htop := top?_mapTop (fun h => { h with depth := max h.depth (n + 1) }) m
  rw [hg, Option.map_some] at htop
  rcases start_target op m h with ⟨g', hg', hstart⟩ | ⟨hnone, -⟩
  · obtain rfl := Option.some.inj (htop.symm.trans hg')
    exact hstart
  · rw [htop] at hnone
    cases hnone

/-- A change of the uppermost value starts from a machine that has noted how deep
the new parts are. -/
theorem target_keeps (hk : Kept p) {op : Opcode} {n : Nat} {f : Value → Process Machine Unit}
    (hf : ∀ m h, m.Holds p → m.top? = some h → n + 1 ≤ h.depth → n + 1 ≤ maxNesting →
      ((f h.value).start m).2.Holds p) :
    Keeps (Holds p) (target op n >>= f) fun _ => True := by
  intro m hm
  refine ⟨?_, fun _ _ => trivial⟩
  rw [start_bind]
  by_cases h : n + 1 ≤ maxNesting
  · have hd := hm.deepened hk h
    rcases start_target op m h with ⟨g, ht, he⟩ | ⟨-, e, he⟩
    · rw [he]
      refine hf _ g hd ht ?_ h
      rw [top?_mapTop, Option.map_eq_some_iff] at ht
      obtain ⟨g', -, rfl⟩ := ht
      exact Nat.le_max_right _ _
    · rw [he]
      exact hd
  · rw [target, start_bind, start_deepenTop, if_pos (Nat.not_le.mp h)]
    exact hm

theorem setTarget_holds {m : Machine} {h : Held} {v : Value} (hm : m.Holds p)
    (ht : m.top? = some h) (hv : p ⟨v, h.depth⟩) : ((setTarget v).start m).2.Holds p := by
  refine hm.mapTop (f := fun h => { h with value := v }) fun g hg => ?_
  obtain rfl : h = g := Option.some.inj (ht.symm.trans hg)
  exact hv

theorem extend_keeps (hk : Kept p) (op : Opcode) {n : Nat} {a : Addition Value}
    (h : ∀ v ∈ a.children, Taken p n v) : Keeps (Holds p) (extend op n a) fun _ => True := by
  apply target_keeps hk
  rintro m ⟨v, d⟩ hm ht hd hn
  dsimp only
  split
  · next w hw =>
    have hextends := Value.extend?_eq_some_iff.mp hw
    apply setTarget_holds hm ht
    apply hk.extend n _ _ (hm.top ht) hn hd hextends.ordinary
    intro c hc
    rw [hextends.children] at hc
    exact .base ((List.mem_append.mp hc).imp_right (h c))
  · exact hm

theorem pairsOnto?_forall {q : Value → Prop} {done entries : List (Value × Value)}
    {items : List Value} (hd : ∀ e ∈ done, q e.1 ∧ q e.2) (hi : ∀ v ∈ items, q v)
    (h : pairsOnto? done items = some entries) : ∀ e ∈ entries, q e.1 ∧ q e.2 := by
  induction done, items using pairsOnto?.induct with
  | case1 done =>
    obtain rfl := Option.some.inj h
    exact fun e he => hd e (List.mem_reverse.mp he)
  | case2 done key value items ih =>
    rw [List.forall_mem_cons, List.forall_mem_cons] at hi
    exact ih (List.forall_mem_cons.mpr ⟨⟨hi.1, hi.2.1⟩, hd⟩) hi.2.2 h
  | case3 => cases h

theorem pairs_keeps (op : Opcode) {q : Value → Prop} {items : List Value} (h : ∀ v ∈ items, q v) :
    Keeps (Holds p) (pairs op items) fun entries => ∀ e ∈ entries, q e.1 ∧ q e.2 := by
  unfold pairs
  cases he : pairsOnto? [] items with
  | none => exact fail_keeps _ _
  | some entries => exact Keeps.pure (pairsOnto?_forall (by simp) h he)

theorem arguments_keeps (op : Opcode) {q : Value → Prop} (hq : Hereditary q) {v : Value}
    (hv : q v) : Keeps (Holds p) (arguments op v) fun items => ∀ a ∈ items, q a := by
  unfold arguments
  cases hi : v.items? with
  | none => exact fail_keeps _ _
  | some items => exact Keeps.pure (hq.items hv hi)

structure Invocation.Sound (p : Held → Prop) (c : Invocation) : Prop where
  named : ∀ name, c.callee = .global name → Named p c.depth name
  args : ∀ v ∈ c.args, Inside (Taken p c.depth) v

theorem invocation_keeps {op : Opcode} {i : Instruction} {f : Process Machine Invocation}
    (h : invocation? op i = some f) (hi : i.Bare) :
    Keeps (Holds p) f (Invocation.Sound p) := by
  have taken : ∀ {n : Nat} {v : Value}, Taken p n v → ∀ name, v = .global name → Named p n name :=
    fun hv name hname => .inr (.base (hname ▸ hv))
  cases i with
  | call =>
    obtain rfl := Option.some.inj h
    apply (popValue_taken op).bind
    intro args ha
    apply (popValue_taken op).bind
    intro callee hcallee
    have hargs := ha.mono (Nat.le_max_left args.depth callee.depth)
    apply (arguments_keeps op (inside_hereditary _) (.base hargs)).bind
    intro items hitems
    exact Keeps.pure ⟨taken (hcallee.mono (Nat.le_max_right _ _)), hitems⟩
  | callWithKeywords =>
    obtain rfl := Option.some.inj h
    apply (popValue_taken op).bind
    intro keywords _
    apply (popValue_taken op).bind
    intro args ha
    apply (popValue_taken op).bind
    intro callee hcallee
    have hargs := (ha.mono (Nat.le_max_left args.depth callee.depth)).mono
      (Nat.le_max_right keywords.depth _)
    have hnamed := (hcallee.mono (Nat.le_max_right args.depth callee.depth)).mono
      (Nat.le_max_right keywords.depth _)
    apply (arguments_keeps op (inside_hereditary _) (.base hargs)).bind
    intro items hitems
    exact Keeps.pure ⟨taken hnamed, hitems⟩
  | callMarked =>
    obtain rfl := Option.some.inj h
    apply (popMarked_taken op).bind
    intro g hg
    split
    · exact fail_keeps _ _
    · next callee args heq =>
      rw [heq, List.forall_mem_cons] at hg
      exact Keeps.pure ⟨taken hg.1, fun v hv => .base (hg.2 v hv)⟩
  | callNamed name =>
    obtain rfl := Option.some.inj h
    apply (popMarked_taken op).bind
    intro g hg
    apply Keeps.pure
    constructor
    · rintro _ ⟨⟩
      exact .inl hi
    · exact fun v hv => .base (hg v hv)
  | _ => cases h

theorem call_holds {r : Registry} {op : Opcode} {c : Invocation} {m : Machine} (hm : m.Holds p)
    (hc : c.Sound p) (hg : ∀ call ∈ c.call?, Grants p r call) :
    ((call r op c.depth c.callee c.args).start m).2.Holds p := by
  obtain ⟨depth, callee, args⟩ := c
  dsimp only at hg ⊢
  unfold call
  split
  · next name =>
    rw [start_bind, start_ofExcept]
    cases hrun : Call.run r name args with
    | error e => exact hm
    | ok o =>
      dsimp only
      rw [start_bind, start_modify]
      have hreported : Holds p { m with reports := m.reports ++ o.unresolved.toList } :=
        ⟨hm.stack, hm.suspended, hm.memo⟩
      exact (push_keeps (hg _ rfl depth o (hc.named name rfl) hc.args hrun) _ hreported).1
  · exact hm

/-- An object on top of the stack takes a state that suits it. -/
theorem start_buildTop {op : Opcode} {state g : Held} {typeName : String}
    {body body' : Body Value} {m : Machine} {c : Cursor} (hn : state.depth + 1 ≤ maxNesting) (hg : m.top? = some g)
    (hv : g.value = .object typeName body)
    (hrestore : (Body.restore typeName state.value).start (body, m.cursor) = (.ok (), body', c)) :
    (buildTop op state).start m = (.ok (), mapTop (fun h => { h with value := .object typeName body' })
      { m.deepened state.depth with cursor := c }) := by
  rw [buildTop, start_bind, start_target_top hn hg]
  dsimp only
  rw [hv]
  dsimp only
  rw [start_bind, start_get]
  dsimp only
  rw [cursor_mapTop, hrestore]
  rfl

theorem buildTop_keeps (hk : Kept p) (op : Opcode) {state : Held}
    (h : Taken p state.depth state.value) :
    Keeps (Holds p) (buildTop op state) fun _ => True := by
  apply target_keeps hk
  intro m g hm ht hd hn
  obtain ⟨v, d⟩ := g
  dsimp only
  split
  · next typeName body =>
    have hrestored := hk.restore _ d typeName body state.value m.cursor (hm.top ht) hn hd h
    simp only [start_bind, start_get, start_set, start_ofExcept]
    generalize (Body.restore typeName state.value).start (body, m.cursor) = o at hrestored
    have hcursor : Holds p { m with cursor := o.2.2 } := ⟨hm.stack, hm.suspended, hm.memo⟩
    exact setTarget_holds hcursor ht hrestored
  · exact hm

theorem put_keeps (op : Opcode) (k : Nat) : Keeps (Holds p) (put op k) fun _ => True := by
  have hbind : ∀ h, p h → Keeps (Holds p)
      ((modify fun m => { m with memo := m.memo.insert k h }) >>= fun _ => pushSlot (.memo k))
      fun _ => True := by
    intro h hp
    refine (Keeps.modify fun m hm => ⟨hm.stack, hm.suspended, fun j g hj => ?_⟩).bind
      fun _ _ => pushSlot_keeps trivial
    rw [Std.TreeMap.getElem?_insert] at hj
    split at hj
    · obtain rfl := Option.some.inj hj
      exact hp
    · exact hm.memo j g hj
  apply (popSlot_keeps op).bind
  intro s hs
  cases s with
  | owned h => exact hbind h hs
  | memo source =>
    by_cases hk : source = k
    · simp only [hk, if_true]
      exact pushSlot_keeps trivial
    · simp only [hk, if_false]
      exact (copyMemo_keeps op source).bind hbind

theorem pushMemo_keeps (op : Opcode) (k : Nat) : Keeps (Holds p) (pushMemo op k) fun _ => True := by
  apply Keeps.get.bind
  intro m _
  by_cases h : m.memo.contains k
  · simp only [h, if_true]
    exact pushSlot_keeps trivial
  · simp only [h]
    exact fail_keeps _ _

theorem dup_keeps (op : Opcode) : Keeps (Holds p) (dup op) fun _ => True := by
  apply (topSlot_keeps op).bind
  intro s hs
  cases s with
  | owned h => exact (chargeCopy_keeps op h.value).bind fun _ _ => pushSlot_keeps hs
  | memo k => exact pushSlot_keeps hs

theorem move_keeps (r : Registry) {op : Opcode} {i : Instruction} (h : i.moves = true) :
    Keeps (Holds p) (step r op i) fun _ => True := by
  cases i with
  | nothing | stop => exact Keeps.pure trivial
  | inspect => exact (topSlot_keeps op).bind fun _ _ => Keeps.pure trivial
  | mark =>
    exact Keeps.modify fun m hm =>
      ⟨by simp, List.forall_mem_cons.mpr ⟨hm.stack, hm.suspended⟩, hm.memo⟩
  | pop =>
    apply Keeps.get.bind
    intro m _
    by_cases h : (m.stack.isEmpty && !m.suspended.isEmpty) = true
    · simp only [h, if_true]
      exact (popMark_keeps op).bind fun _ _ => Keeps.pure trivial
    · simp only [h]
      exact (popSlot_keeps op).bind fun _ _ => Keeps.pure trivial
  | popMark => exact (popMark_keeps op).bind fun _ _ => Keeps.pure trivial
  | dup => exact dup_keeps op
  | get k => exact pushMemo_keeps op k
  | put k => exact put_keeps op k
  | memoize =>
    apply Keeps.get.bind
    intro m _
    by_cases h : m.memo.size < 2 ^ 32
    · simp only [h, if_true]
      exact put_keeps op _
    · simp only [h, if_false]
      exact fail_keeps _ _
  | _ => cases h

/-- An instruction that calls nothing. -/
theorem step_keeps (hk : Kept p) (r : Registry) {op : Opcode} {i : Instruction} (hi : i.Bare)
    (hcall : invocation? op i = none) : Keeps (Holds p) (step r op i) fun _ => True := by
  have parts : ∀ {n : Nat} {vs : List Value}, (∀ v ∈ vs, Taken p n v) →
      ∀ v ∈ vs, Inside (Taken p n) v := fun h v hv => .base (h v hv)
  cases i with
  | nothing | stop | inspect | mark | pop | popMark | dup | get | put | memoize =>
    exact move_keeps r rfl
  | push v =>
    apply pushMade_keeps hk hi.2
    intro c hcm
    rw [hi.1] at hcm
    cases hcm
  | tuple size => exact (popValues_taken op size).bind fun g hg => pushMade_keeps hk trivial (parts hg)
  | gather kind =>
    refine (popMarked_taken op).bind fun g hg => pushMade_keeps hk trivial fun c hcm => ?_
    have hsub : c ∈ g.values := by
      change c ∈ ite _ _ _ at hcm
      split at hcm
      · exact Value.distinctItems_subset _ hcm
      · exact hcm
    exact parts hg c hsub
  | gatherDict =>
    exact (popMarked_taken op).bind fun g hg => (pairs_keeps op hg).bind fun entries he =>
      pushMade_keeps hk trivial (parts (Value.forall_mem_entries he))
  | append =>
    exact (popValue_taken op).bind fun h hh =>
      extend_keeps hk op (List.forall_mem_singleton.mpr hh)
  | appends => exact (popMarked_taken op).bind fun g hg => extend_keeps hk op hg
  | setItem =>
    refine (popValue_taken op).bind fun value hv => (popValue_taken op).bind fun key hkey =>
      extend_keeps hk op (Value.forall_mem_entries ?_)
    rw [List.forall_mem_singleton]
    exact ⟨hkey.mono (Nat.le_max_right _ _), hv.mono (Nat.le_max_left _ _)⟩
  | setItems =>
    exact (popMarked_taken op).bind fun g hg => (pairs_keeps op hg).bind fun _ he =>
      extend_keeps hk op (Value.forall_mem_entries he)
  | addItems => exact (popMarked_taken op).bind fun g hg => extend_keeps hk op hg
  | stackGlobal =>
    refine (popValue_taken op).bind fun name _ => (popValue_taken op).bind fun module_ _ => ?_
    split
    · exact pushMade_keeps hk (Fetch.dotted_ne_empty _ _) fun _ hcm => by cases hcm
    · exact fail_keeps _ _
  | build => exact (popValue_taken op).bind fun state hs => buildTop_keeps hk op hs
  | call | callWithKeywords | callMarked | callNamed name => cases hcall

theorem step_holds (hk : Kept p) {r : Registry} {op : Opcode} {i : Instruction} (hi : i.Bare)
    {m : Machine} (hm : m.Holds p) (hg : ∀ call ∈ calledIn op i m, Grants p r call) :
    ((step r op i).start m).2.Holds p := by
  cases hcall : invocation? op i with
  | none => exact (step_keeps hk r hi hcall m hm).1
  | some f =>
    obtain ⟨hf, hsound⟩ := invocation_keeps hcall hi m hm
    rw [step_eq_call hcall, start_bind]
    rcases hstart : f.start m with ⟨e | c, m'⟩
    · rwa [hstart] at hf
    · rw [hstart] at hf hsound
      refine call_holds hf (hsound c rfl) fun call hc => hg call ?_
      rw [calledIn, hcall, Option.bind_some, result?_eq_some_iff.mpr hstart]
      exact hc

end Machine

end PickledModel
