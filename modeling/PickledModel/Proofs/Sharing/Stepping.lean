import PickledModel.Proofs.Sharing.Writing
import PickledModel.Proofs.Stream.NestingBound
import PickledModel.Proofs.Stream.Parts

/-! Steps of the machine of copies against steps of the machine of shared references.
Where an instruction binds an unbound index to a value that no index is bound to, and
doubles no slot, the second machine takes a step too and agrees with the first. -/

set_option autoImplicit false

namespace PickledModel

open Process

theorem pairUp?_of_pairsOnto? {f : Ref → Value} {rs : List Ref} {done es : List (Value × Value)}
    (h : Machine.pairsOnto? done (rs.map f) = some es) :
    ∃ ps, pairUp? rs = some ps ∧ es = done.reverse ++ ps.map (fun e => (f e.1, f e.2)) ∧
      ∀ e ∈ ps, e.1 ∈ rs ∧ e.2 ∈ rs := by
  induction rs using pairUp?.induct generalizing done with
  | case1 =>
    cases h
    exact ⟨[], rfl, by simp, by simp⟩
  | case2 key value items ih =>
    rw [List.map_cons, List.map_cons, Machine.pairsOnto?] at h
    obtain ⟨ps, hps, rfl, hmem⟩ := ih h
    refine ⟨(key, value) :: ps, by rw [pairUp?, hps]; rfl, by simp, ?_⟩
    refine List.forall_mem_cons.mpr ⟨by simp, fun e he => ?_⟩
    obtain ⟨hkey, hvalue⟩ := hmem e he
    exact ⟨List.mem_cons_of_mem _ (List.mem_cons_of_mem _ hkey),
      List.mem_cons_of_mem _ (List.mem_cons_of_mem _ hvalue)⟩
  | case3 item => cases h

def Slot.isOwned : Slot → Bool
  | .owned _ => true
  | .memo _ => false

/-- Whether an instruction binds, if anything, an unbound index to a value that no
index is bound to, and does not double a slot. -/
def Machine.bindsFresh (m : Machine) : Instruction → Bool
  | .dup => false
  | i =>
    match m.binds? i with
    | some k => !m.memo.contains k && m.stack.head?.all Slot.isOwned
    | none => true

theorem Machine.bindsFresh_of_binds {m : Machine} {i : Instruction} {k : Nat}
    (hi : m.binds? i = some k) (hfresh : m.bindsFresh i = true) :
    m.memo[k]? = none ∧ m.stack.head?.all Slot.isOwned = true := by
  have hboth : (!m.memo.contains k && m.stack.head?.all Slot.isOwned) = true := by
    cases i with
    | put j =>
      obtain rfl := Option.some.inj hi
      exact hfresh
    | memoize =>
      obtain rfl := Option.some.inj hi
      exact hfresh
    | _ => cases hi
  rw [Bool.and_eq_true, Std.TreeMap.contains_eq_isSome_getElem?] at hboth
  refine ⟨?_, hboth.2⟩
  cases hm : m.memo[k]? with
  | none => rfl
  | some h =>
    rw [hm] at hboth
    cases hboth.1

namespace Agrees

variable {op : Opcode} {m m' : Machine} {s s₀ : HeapMachine}

theorem call (ha : Agrees m s) {r : Registry} {n : Nat} (callee : Ref) {args : List Ref}
    (hcallee : callee.In s.popped) (hargs : ∀ a ∈ args, a.In s.popped) :
    Simulates (Machine.call r op n (s.heap.tree callee) (args.map s.heap.tree)) m
      (s.call? r callee args) fun _ => Agrees := by
  rintro ⟨⟩ m' hc
  obtain ⟨name, o, hname, hrun, rfl⟩ := Machine.call_ok hc
  obtain rfl := ha.settled.eq_leaf_of_tree hcallee hname
  obtain ⟨l, hl, hrebuilds⟩ := ha.settled.call_tree hargs hrun
  refine ⟨_, by rw [HeapMachine.call?, hl]; rfl, ?_⟩
  rw [ha.reports]
  exact (ha.withReports (m.reports ++ o.unresolved.toList)).push _ hrebuilds

theorem stack_isEmpty (ha : Agrees m s) : s.stack.isEmpty = m.stack.isEmpty := by
  obtain ⟨top, below, h₁, h₂, -, -, -⟩ := ha.slots
  rw [h₁, h₂, List.isEmpty_map, List.isEmpty_map]

theorem suspended_isEmpty (ha : Agrees m s) : s.suspended.isEmpty = m.suspended.isEmpty := by
  obtain ⟨top, below, -, -, h₃, h₄, -⟩ := ha.slots
  rw [h₃, h₄, List.isEmpty_map, List.isEmpty_map]

theorem popSlot (ha : Agrees m s) :
    Simulates (Machine.popSlot op) m
      (if s.stack.isEmpty then none else some { s with stack := s.stack.tail })
      fun _ => Agrees := by
  intro slot m' hp
  obtain ⟨stack, hstack, rfl⟩ := Machine.popSlot_ok hp
  have hempty : ¬ s.stack.isEmpty = true := by
    rw [ha.stack_isEmpty, hstack]
    exact Bool.false_ne_true
  refine ⟨_, if_neg hempty, ?_⟩
  obtain ⟨top, below, h₁, h₂, h₃, h₄, hf⟩ := ha.slots
  refine ⟨ha.cursor, ha.reports, ha.size, top.tail, below, ?_, by rw [h₂, List.map_tail], h₃, h₄,
    hf.sublist ((List.tail_sublist top).append (List.Sublist.refl _))⟩
  rw [List.map_tail, ← h₁, hstack]
  rfl

theorem mark (ha : Agrees m s) :
    Agrees { m with stack := [], suspended := m.stack :: m.suspended }
      { s with stack := [], suspended := s.stack :: s.suspended } := by
  obtain ⟨top, below, h₁, h₂, h₃, h₄, hf⟩ := ha.slots
  exact ⟨ha.cursor, ha.reports, ha.size, [], top :: below, rfl, rfl, by rw [h₁, h₃]; rfl,
    by rw [h₂, h₄]; rfl, hf⟩

theorem bind (ha : Agrees m s) {k : Nat} {i : Instruction} (hi : m.binds? i = some k)
    (hfresh : m.bindsFresh i = true) :
    Simulates (Machine.put op k) m (s.bind? k) fun _ => Agrees := by
  intro u m' hp
  obtain ⟨top, rest, hstack, -⟩ := Machine.put_ok hp
  obtain ⟨hk, howned⟩ := Machine.bindsFresh_of_binds hi hfresh
  rw [hstack] at howned
  cases top with
  | owned h => exact ha.put hstack hk u m' hp
  | memo j => cases howned

theorem pushFlat (ha : Agrees m s) {v : Value} (hv : v.children = []) {n : Nat} :
    Simulates (Machine.push op n v) m (some (s.push ((Layer.ofValue v).map fun _ => .leaf .none)))
      fun _ => Agrees := by
  apply ha.pushes
  have hchildless : (Layer.ofValue v).children = [] := by rw [Layer.children_ofValue, hv]
  refine ⟨?_, ?_⟩
  · rw [Layer.map_map_of_childless hchildless, Layer.value_ofValue]
  · rw [Layer.children_map, hchildless]
    simp

theorem pairs {rs : List Ref} {vs : List Value} (htook : Took s₀ s rs vs) :
    Simulates (Machine.pairs op vs) m (pairUp? rs) fun es m' ps =>
      m' = m ∧ es = ps.map (fun e => (s.heap.tree e.1, s.heap.tree e.2)) ∧
        ∀ e ∈ ps, e.1.In s.popped ∧ e.2.In s.popped := by
  intro es m' hp
  obtain ⟨hpairs, rfl⟩ := Machine.pairs_ok hp
  rw [htook.values] at hpairs
  obtain ⟨ps, hps, rfl, hmem⟩ := pairUp?_of_pairsOnto? hpairs
  exact ⟨ps, hps, rfl, by simp,
    fun e he => ⟨htook.settled _ (hmem e he).1, htook.settled _ (hmem e he).2⟩⟩

theorem arguments (ha : Agrees m s) {r : Ref} {v : Value} (htook : Took s₀ s [r] [v]) :
    Simulates (Machine.arguments op v) m (s.heap.items? r) fun vs m' rs =>
      m' = m ∧ vs = rs.map s.heap.tree ∧ ∀ q ∈ rs, q.In s.popped := by
  intro vs m' hp
  obtain ⟨hitems, rfl⟩ := Machine.arguments_ok hp
  rw [htook.value, ha.settled.items?_tree htook.settled_one, Option.map_eq_some_iff] at hitems
  obtain ⟨rs, hrs, rfl⟩ := hitems
  exact ⟨rs, hrs, rfl, rfl, ha.settled.items?_in htook.settled_one hrs⟩

/-- A call of a value that was taken out, with the arguments that another one holds. -/
theorem callTaken (ha : Agrees m s) {r : Registry} {n : Nat} {f q : Ref} {callee v : Value}
    (hcallee : Took s₀ s [f] [callee]) {s₁ : HeapMachine} (hargs : Took s₁ s [q] [v]) :
    Simulates (do Machine.call r op n callee (← Machine.arguments op v)) m
      (do s.call? r f (← s.heap.items? q)) fun _ => Agrees := by
  apply (ha.arguments hargs).bind
  rintro _ _ rs ⟨rfl, rfl, hin⟩
  rw [hcallee.value]
  exact ha.call f hcallee.settled_one hin

theorem gathered (kind : SequenceKind) {rs : List Ref} (hin : ∀ r ∈ rs, r.In s.popped) :
    Heap.Settled.Rebuilds s.heap s.popped (.sequence kind rs)
      (.sequence kind (if kind = .frozenSet then Value.distinctItems (rs.map s.heap.tree)
        else rs.map s.heap.tree)) := by
  cases kind with
  | frozenSet => exact Heap.Settled.rebuilds_frozenSet hin
  | _ => exact ⟨rfl, hin⟩

section
variable {r : Registry} {i : Instruction}

/-- An instruction that changes the uppermost value. -/
theorem step_of_writes (ha : Agrees m s) (hb : m.Holds Held.Bounded) (hw : i.writes = true) :
    Simulates (Machine.step r op i) m (s.step? r i) fun _ => AgreesApart := by
  cases i with
  | append =>
    apply ha.popValue.bind
    rintro h m₁ ⟨q, s₁⟩ ⟨ha₁, htook⟩
    rw [htook.value]
    exact ha₁.extend (.toList [q]) htook.settled
  | appends =>
    apply ha.popMarked.bind
    rintro g m₁ ⟨rs, s₁⟩ ⟨ha₁, htook⟩
    rw [htook.values]
    exact ha₁.extend (.toList rs) htook.settled
  | setItem =>
    apply ha.popValue.bind
    rintro value m₁ ⟨v, s₁⟩ ⟨ha₁, hvalue⟩
    apply ha₁.popValue.bind
    rintro key m₂ ⟨k, s₂⟩ ⟨ha₂, hkey⟩
    have hvalue' := hvalue.later hkey
    rw [hkey.value, hvalue'.value]
    apply ha₂.extend (.toDict [(k, v)])
    apply Heap.Settled.children_dict_in
    exact List.forall_mem_singleton.mpr ⟨hkey.settled_one, hvalue'.settled_one⟩
  | setItems =>
    apply ha.popMarked.bind
    rintro g m₁ ⟨rs, s₁⟩ ⟨ha₁, htook⟩
    apply (pairs htook).bind
    rintro _ _ ps ⟨rfl, rfl, hin⟩
    exact ha₁.extend (.toDict ps) (Heap.Settled.children_dict_in hin)
  | addItems =>
    apply ha.popMarked.bind
    rintro g m₁ ⟨rs, s₁⟩ ⟨ha₁, htook⟩
    rw [htook.values]
    exact ha₁.extend (.toSet rs) htook.settled
  | build =>
    intro u m' hs
    obtain ⟨state, m₁, hpop, hbuild⟩ := start_bind_ok hs
    obtain ⟨⟨q, s₁⟩, hq, ha₁, htook⟩ := ha.popValue state m₁ hpop
    have hnesting : state.value.nesting ≤ state.depth := by
      have htaken := (Machine.popValue_taken op m hb).2 state (by rw [hpop])
      exact htaken.nesting_le
    obtain ⟨s', hmade, ha'⟩ := ha₁.build htook hnesting u m' hbuild
    refine ⟨s', ?_, ha'⟩
    simp only [HeapMachine.step?, hq, hmade, Option.bind_eq_bind, Option.bind_some]
  | _ => cases hw

/-- An instruction that moves slots leaves the two machines in agreement. -/
theorem step_of_moves (ha : Agrees m s) (hfresh : m.bindsFresh i = true) (h : i.moves = true) :
    Simulates (Machine.step r op i) m (s.step? r i) fun _ => Agrees := by
  cases i with
  | nothing | stop => exact .pure ha
  | inspect =>
    rintro ⟨⟩ m' hs
    obtain ⟨slot, m₁, htop, ⟨⟩⟩ := start_bind_ok hs
    obtain ⟨rfl, hne⟩ := Machine.topSlot_ok htop
    exact ⟨s, by rw [HeapMachine.step?, ha.stack_isEmpty, if_neg hne], ha⟩
  | mark =>
    rintro _ _ ⟨⟩
    exact ⟨_, rfl, ha.mark⟩
  | pop =>
    rintro u m' hs
    rw [Machine.step, start_bind, start_get] at hs
    rw [HeapMachine.step?, ha.suspended_isEmpty]
    by_cases hempty : (m.stack.isEmpty && !m.suspended.isEmpty) = true
    · simp only [hempty, if_true] at hs
      rw [ha.stack_isEmpty, if_pos hempty]
      exact ha.endSegment u m' hs
    · simp only [hempty] at hs
      rw [← ha.stack_isEmpty] at hempty
      rw [if_neg hempty]
      obtain ⟨slot, m₁, hpop, ⟨⟩⟩ := start_bind_ok hs
      exact ha.popSlot slot _ hpop
  | popMark => exact ha.endSegment
  -- a doubled slot would share a cell that both slots change
  | dup => cases hfresh
  | get k => exact ha.pushMemo
  | put k => exact ha.bind rfl hfresh
  | memoize =>
    rintro u m' hs
    have hput := Machine.step_binds_ok (k := m.memo.size) rfl hs
    rw [Machine.step, start_bind, start_get] at hs
    by_cases hsize : m.memo.size < 2 ^ 32
    · rw [HeapMachine.step?, ha.size, if_pos hsize]
      exact ha.bind rfl hfresh u m' hput
    · simp only [hsize] at hs
      cases hs
  | _ => cases h

theorem step_of_makes (ha : Agrees m s) (h : i.makes = true) :
    Simulates (Machine.step r op i) m (s.step? r i) fun _ => Agrees := by
  cases i with
  | tuple size =>
    apply ha.popValues.bind
    rintro g m₁ ⟨rs, s₁⟩ ⟨ha₁, htook⟩
    rw [htook.values]
    exact ha₁.pushes (gathered .tuple htook.settled)
  | gather kind =>
    apply ha.popMarked.bind
    rintro g m₁ ⟨rs, s₁⟩ ⟨ha₁, htook⟩
    rw [htook.values]
    exact ha₁.pushes (gathered kind htook.settled)
  | gatherDict =>
    apply ha.popMarked.bind
    rintro g m₁ ⟨rs, s₁⟩ ⟨ha₁, htook⟩
    apply (pairs htook).bind
    rintro _ _ ps ⟨rfl, rfl, hin⟩
    exact ha₁.pushes ⟨rfl, Heap.Settled.children_dict_in hin⟩
  | stackGlobal =>
    apply ha.popValue.bind
    rintro name m₁ ⟨n, s₁⟩ ⟨ha₁, hname⟩
    apply ha₁.popValue.bind
    rintro module_ m₂ ⟨q, s₂⟩ ⟨ha₂, hmodule⟩
    have hname' := hname.later hmodule
    split
    · next first second hfirst hsecond =>
      rw [hmodule.value] at hfirst
      rw [hname'.value] at hsecond
      obtain rfl := ha₂.settled.eq_leaf_of_tree hmodule.settled_one hfirst
      obtain rfl := ha₂.settled.eq_leaf_of_tree hname'.settled_one hsecond
      exact ha₂.pushes (Heap.Settled.rebuilds_leaf _)
    · exact .fail
  | _ => cases h

theorem step_of_calls (ha : Agrees m s) (h : i.calls = true) :
    Simulates (Machine.step r op i) m (s.step? r i) fun _ => Agrees := by
  cases i with
  | call =>
    apply ha.popValue.bind
    rintro args m₁ ⟨q, s₁⟩ ⟨ha₁, hargs⟩
    apply ha₁.popValue.bind
    rintro callee m₂ ⟨f, s₂⟩ ⟨ha₂, hcallee⟩
    exact ha₂.callTaken hcallee (hargs.later hcallee)
  | callWithKeywords =>
    apply ha.popValue.bind
    rintro keywords m₁ ⟨w, s₁⟩ ⟨ha₁, -⟩
    apply ha₁.popValue.bind
    rintro args m₂ ⟨q, s₂⟩ ⟨ha₂, hargs⟩
    apply ha₂.popValue.bind
    rintro callee m₃ ⟨f, s₃⟩ ⟨ha₃, hcallee⟩
    exact ha₃.callTaken hcallee (hargs.later hcallee)
  | callMarked =>
    apply ha.popMarked.bind
    rintro g m₁ ⟨rs, s₁⟩ ⟨ha₁, htook⟩
    rw [htook.values]
    cases rs with
    | nil => exact .fail
    | cons callee args =>
      obtain ⟨hcallee, hargs⟩ := List.forall_mem_cons.mp htook.settled
      exact ha₁.call callee hcallee hargs
  | callNamed name =>
    apply ha.popMarked.bind
    rintro g m₁ ⟨rs, s₁⟩ ⟨ha₁, htook⟩
    have hglobal : s₁.heap.tree (.leaf (.global name)) = .global name := Heap.Settled.tree_leaf _
    rw [htook.values, ← hglobal]
    exact ha₁.call (.leaf (.global name)) trivial htook.settled
  | _ => cases h

/-- An instruction that changes no value leaves the two machines in agreement. -/
theorem step_of_not_writes (ha : Agrees m s) (hi : i.Flat) (hfresh : m.bindsFresh i = true)
    (hw : i.writes = false) : Simulates (Machine.step r op i) m (s.step? r i) fun _ => Agrees := by
  cases i with
  | push v => exact ha.pushFlat hi
  | nothing | stop | inspect | mark | pop | popMark | dup | get | put | memoize =>
    exact ha.step_of_moves hfresh rfl
  | tuple | gather | gatherDict | stackGlobal => exact ha.step_of_makes rfl
  | call | callWithKeywords | callMarked | callNamed => exact ha.step_of_calls rfl
  | append | appends | setItem | setItems | addItems | build => cases hw

theorem step (ha : Agrees m s) (hb : m.Holds Held.Bounded) (hi : i.Flat)
    (hfresh : m.bindsFresh i = true) :
    Simulates (Machine.step r op i) m (s.step? r i)
      fun _ m' s' => (i.writes = true → s'.topApart = true) → Agrees m' s' := by
  cases hw : i.writes with
  | true => exact (ha.step_of_writes hb hw).mono fun _ _ _ h hapart => h (hapart rfl)
  | false => exact (ha.step_of_not_writes hi hfresh hw).mono fun _ _ _ h _ => h

end

/-- `STOP`. -/
theorem finish (ha : Agrees m s) {v : Value} (hf : Machine.finish.start m = (.ok v, m')) :
    ∃ q s', s.finish? = some (q, s') ∧ Agrees m' s' ∧ Unfolds s'.heap q v := by
  obtain ⟨slot, g, hsuspended, hstack, hresolve, rfl⟩ := Machine.finish_ok hf
  obtain ⟨top, below, h₁, h₂, h₃, h₄, hfaithful⟩ := ha.slots
  rw [hstack] at h₁
  obtain ⟨p, rest, rfl, rfl, hrest⟩ := List.map_eq_cons_iff.mp h₁.symm
  obtain rfl := List.map_eq_nil_iff.mp hrest
  rw [hsuspended] at h₃
  obtain rfl := List.map_eq_nil_iff.mp h₃.symm
  have hempty : Agrees { m with stack := [] } { s with stack := [] } :=
    ⟨ha.cursor, ha.reports, ha.size, [], [], rfl, rfl, hsuspended, h₄,
      hfaithful.sublist (List.nil_sublist _)⟩
  have hface : Faces s.heap s.memo p := hfaithful.faces p (by simp)
  obtain ⟨ha', hu⟩ := hempty.resolve hface hresolve
  refine ⟨p.2, { s with stack := [] }, ?_, ha', hu⟩
  simp only [HeapMachine.finish?, h₄, h₂, List.map_cons, List.map_nil]

end Agrees

end PickledModel
