import PickledModel.Proofs.Sharing.Agreement
import PickledModel.Proofs.Sharing.Calling
import PickledModel.Proofs.Sharing.Restoring
import PickledModel.Proofs.Stream.Success

/-! The machine of owned values and the machine of shared references agree in
each part of an instruction: in taking values out of slots, in pushing a value,
in binding an index, and in writing a cell that went into no other value. -/

set_option autoImplicit false

namespace PickledModel
open Process

def Simulates {α β : Type} (p : Process Machine α) (m : Machine) (o : Option β)
    (Q : α → Machine → β → Prop) : Prop :=
  ∀ a m', p.start m = (.ok a, m') → ∃ b, o = some b ∧ Q a m' b

namespace Simulates

variable {α β γ δ : Type} {p : Process Machine α} {m : Machine} {o : Option β}
  {Q : α → Machine → β → Prop}

theorem pure {a : α} {b : β} (h : Q a m b) : Simulates (Pure.pure a) m (some b) Q := by
  rintro _ _ ⟨⟩
  exact ⟨b, rfl, h⟩

theorem fail {op : Opcode} {c : Cause} :
    Simulates (Machine.fail op c : Process Machine α) m o Q := by
  rintro _ _ ⟨⟩

theorem bind {f : α → Process Machine γ} {g : β → Option δ} {Q' : γ → Machine → δ → Prop}
    (hp : Simulates p m o Q) (hf : ∀ a m' b, Q a m' b → Simulates (f a) m' (g b) Q') :
    Simulates (p >>= f) m (o >>= g) Q' := by
  intro c m'' h
  obtain ⟨a, m', ha, hc⟩ := start_bind_ok h
  obtain ⟨b, rfl, hq⟩ := hp a m' ha
  exact hf a m' b hq c m'' hc

theorem map {Q' : γ → Machine → δ → Prop} (hp : Simulates p m o Q) (f : α → γ) (g : β → δ)
    (hq : ∀ a m' b, Q a m' b → Q' (f a) m' (g b)) :
    Simulates (p >>= fun a => Pure.pure (f a)) m (o.map g) Q' := by
  rw [Option.map_eq_bind]
  exact hp.bind fun a m' b h => .pure (hq a m' b h)

theorem mono {Q' : α → Machine → β → Prop} (hp : Simulates p m o Q)
    (hq : ∀ a m' b, Q a m' b → Q' a m' b) : Simulates p m o Q' := by
  intro a m' ha
  obtain ⟨b, hb, h⟩ := hp a m' ha
  exact ⟨b, hb, hq a m' b h⟩

end Simulates

structure Agrees (m : Machine) (s : HeapMachine) : Prop where
  cursor : s.cursor = m.cursor
  reports : s.reports = m.reports
  size : s.memo.size = m.memo.size
  slots : ∃ (top : List (Slot × Ref)) (below : List (List (Slot × Ref))),
    m.stack = top.map Prod.fst ∧ s.stack = top.map Prod.snd ∧
    m.suspended = below.map (List.map Prod.fst) ∧ s.suspended = below.map (List.map Prod.snd) ∧
    Faithful m.memo s.memo s.heap s.popped (top ++ below.flatten)

structure Took (s s' : HeapMachine) (rs : List Ref) (vs : List Value) : Prop where
  heap : s'.heap = s.heap
  stays : ∀ r : Ref, r.In s.popped → r.In s'.popped
  values : vs = rs.map s'.heap.tree
  settled : ∀ r ∈ rs, r.In s'.popped

theorem Took.later {s s' s'' : HeapMachine} {rs rs' : List Ref} {vs vs' : List Value}
    (h : Took s s' rs vs) (h' : Took s' s'' rs' vs') : Took s s'' rs vs where
  heap := h'.heap.trans h.heap
  stays r hr := h'.stays r (h.stays r hr)
  values := by rw [h.values, h'.heap]
  settled r hr := h'.stays r (h.settled r hr)

/-- What leaves the heap alone and settles nothing may come before. -/
theorem Took.after {s s' s'' : HeapMachine} {rs : List Ref} {vs : List Value}
    (h : Took s' s'' rs vs) (hheap : s'.heap = s.heap) (hpopped : s'.popped = s.popped) :
    Took s s'' rs vs where
  heap := h.heap.trans hheap
  stays r hr := h.stays r (hpopped ▸ hr)
  values := h.values
  settled := h.settled

theorem Took.value {s s' : HeapMachine} {r : Ref} {v : Value} (h : Took s s' [r] [v]) :
    v = s'.heap.tree r :=
  (List.cons.inj h.values).1

theorem Took.settled_one {s s' : HeapMachine} {r : Ref} {v : Value} (h : Took s s' [r] [v]) :
    r.In s'.popped :=
  h.settled r (by simp)

namespace Agrees

variable {op : Opcode} {m m' : Machine} {s : HeapMachine}

theorem ofBytes (data : Bytes) : Agrees (.ofBytes data) (.ofBytes data) where
  cursor := rfl
  reports := rfl
  size := rfl
  slots := by
    refine ⟨[], [], rfl, rfl, rfl, rfl, ⟨⟨?_, ?_, ?_⟩, ?_, ?_, ?_, ?_, ?_⟩⟩
    · simp [HeapMachine.ofBytes]
    · simp [HeapMachine.ofBytes]
    · simp [HeapMachine.ofBytes]
    · simp
    · intro k
      rw [HeapMachine.ofBytes, Machine.ofBytes, Std.TreeMap.getElem?_emptyc,
        Std.TreeMap.getElem?_emptyc]
      exact .none
    · simp
    · simp
    · simp [HeapMachine.ofBytes]

/-- The allowance, the cursor and the reports have no part in what slots stand for. -/
theorem withCursor (ha : Agrees m s) (c : Cursor) : Agrees { m with cursor := c } { s with cursor := c } :=
  ⟨rfl, ha.reports, ha.size, ha.slots⟩

theorem withReports (ha : Agrees m s) (reports : List String) :
    Agrees { m with reports } { s with reports } :=
  ⟨ha.cursor, rfl, ha.size, ha.slots⟩

theorem withAllowance (ha : Agrees m s) (allowance : Nat) : Agrees { m with allowance } s :=
  ⟨ha.cursor, ha.reports, ha.size, ha.slots⟩

theorem settled (ha : Agrees m s) : s.heap.Settled s.popped := by
  obtain ⟨top, below, -, -, -, -, hf⟩ := ha.slots
  exact hf.settled

theorem note (ha : Agrees m s) {rs : List Ref} (hr : ∀ r ∈ rs, ∃ u, Unfolds s.heap r u) :
    Agrees m (s.note rs) := by
  obtain ⟨top, below, h₁, h₂, h₃, h₄, hf⟩ := ha.slots
  exact ⟨ha.cursor, ha.reports, ha.size, top, below, h₁, h₂, h₃, h₄, hf.note hr⟩

theorem note_stays (s : HeapMachine) (rs : List Ref) (r : Ref) (hr : r.In s.popped) :
    r.In (s.note rs).popped := by
  cases r with
  | leaf l => trivial
  | cell a => exact List.mem_append_right _ hr

theorem note_in (s : HeapMachine) {rs : List Ref} {r : Ref} (hr : r ∈ rs) :
    r.In (s.note rs).popped := by
  cases r with
  | leaf l => trivial
  | cell a => exact List.mem_append_left _ (List.mem_filterMap.mpr ⟨_, hr, rfl⟩)

theorem held (ha : Agrees m s) {p : Slot × Ref} (hp : Faces s.heap s.memo p) {g : Held}
    (hg : m.held? p.1 = some g) : Unfolds s.heap p.2 g.value.normalize := by
  obtain ⟨top, below, -, -, -, -, hf⟩ := ha.slots
  obtain ⟨slot, r⟩ := p
  cases slot with
  | owned h =>
    obtain rfl := Option.some.inj hg
    exact hp
  | memo k =>
    obtain ⟨h, hh, hu⟩ := hf.bound_unfolds hp
    obtain rfl := Option.some.inj (hh.symm.trans hg)
    exact hu

theorem resolve (ha : Agrees m s) {p : Slot × Ref} (hp : Faces s.heap s.memo p) {h : Held}
    (hr : (Machine.resolve op p.1).start m = (.ok h, m')) :
    Agrees m' s ∧ Unfolds s.heap p.2 h.value := by
  obtain ⟨g, allowance, hg, rfl, rfl⟩ := Machine.resolve_ok hr
  exact ⟨ha.withAllowance allowance, ha.held hp hg⟩

theorem resolveSlots (ha : Agrees m s) {pairs : List (Slot × Ref)}
    (hp : ∀ p ∈ pairs, Faces s.heap s.memo p) {hs : List Held}
    (hr : ((pairs.map Prod.fst).mapM (Machine.resolve op)).start m = (.ok hs, m')) :
    Agrees m' s ∧ (∀ r ∈ pairs.map Prod.snd, ∃ u, Unfolds s.heap r u) ∧
      hs.map Held.value = (pairs.map Prod.snd).map s.heap.tree := by
  induction pairs generalizing m hs with
  | nil =>
    cases hr
    exact ⟨ha, by simp, rfl⟩
  | cons p pairs ih =>
    obtain ⟨hp, hrest⟩ := List.forall_mem_cons.mp hp
    rw [List.map_cons, List.mapM_cons] at hr
    obtain ⟨h, m₁, hfirst, hr⟩ := start_bind_ok hr
    obtain ⟨hs', m₂, hrest', hr⟩ := start_bind_ok hr
    cases hr
    obtain ⟨ha₁, hu⟩ := ha.resolve hp hfirst
    obtain ⟨ha₂, hunfolds, hvalues⟩ := ih ha₁ hrest hrest'
    refine ⟨ha₂, List.forall_mem_cons.mpr ⟨⟨_, hu⟩, hunfolds⟩, ?_⟩
    rw [List.map_cons, List.map_cons, List.map_cons, hvalues, Heap.tree_eq hu]

/-- Taking values out of slots that are no longer on the stack. -/
theorem resolveAll (ha : Agrees m s) {pairs : List (Slot × Ref)}
    (hp : ∀ p ∈ pairs, Faces s.heap s.memo p) :
    Simulates (Machine.resolveAll op (pairs.map Prod.fst)) m
      (some (pairs.map Prod.snd, s.note (pairs.map Prod.snd)))
      fun g m' o => Agrees m' o.2 ∧ Took s o.2 o.1 g.values := by
  intro g m' hr
  obtain ⟨hs, m₁, hall, hr⟩ := start_bind_ok hr
  cases hr
  obtain ⟨ha₁, hunfolds, hvalues⟩ := ha.resolveSlots hp hall
  exact ⟨_, rfl, ha₁.note hunfolds, rfl, note_stays s _, hvalues, fun r hr => note_in s hr⟩

theorem popValue (ha : Agrees m s) :
    Simulates (Machine.popValue op) m s.pop?
      fun h m' o => Agrees m' o.2 ∧ Took s o.2 [o.1] [h.value] := by
  intro h m' hp
  obtain ⟨slot, stack, hstack, hr⟩ := Machine.popValue_ok hp
  obtain ⟨top, below, h₁, h₂, h₃, h₄, hf⟩ := ha.slots
  rw [hstack] at h₁
  obtain ⟨p, rest, rfl, rfl, rfl⟩ := List.map_eq_cons_iff.mp h₁.symm
  have hrest : Agrees { m with stack := rest.map Prod.fst } { s with stack := rest.map Prod.snd } :=
    ⟨ha.cursor, ha.reports, ha.size, rest, below, rfl, rfl, h₃, h₄,
      hf.sublist (List.sublist_cons_self _ _)⟩
  have hface : Faces s.heap s.memo p := hf.faces p (by simp)
  obtain ⟨ha', hu⟩ := hrest.resolve hface hr
  refine ⟨(p.2, _), by rw [HeapMachine.pop?, h₂]; rfl, ha'.note ?_, rfl, note_stays s _, ?_, ?_⟩
  · simpa using ⟨_, hu⟩
  · exact congrArg ([·]) (Heap.tree_eq hu).symm
  · intro r hr
    exact note_in s hr

theorem popMark (ha : Agrees m s) :
    Simulates (Machine.popMark op) m s.endSegment? fun slots m' o =>
      ∃ taken : List (Slot × Ref), slots = taken.map Prod.fst ∧ o.1 = taken.map Prod.snd ∧
        Agrees m' o.2 ∧ o.2.heap = s.heap ∧ o.2.popped = s.popped ∧
        ∀ p ∈ taken, Faces o.2.heap o.2.memo p := by
  intro slots m' hp
  obtain ⟨stack, suspended, hsuspended, rfl, rfl⟩ := Machine.popMark_ok hp
  obtain ⟨top, below, h₁, h₂, h₃, h₄, hf⟩ := ha.slots
  rw [hsuspended] at h₃
  obtain ⟨segment, rest, rfl, rfl, rfl⟩ := List.map_eq_cons_iff.mp h₃.symm
  refine ⟨(top.reverse.map Prod.snd, { s with
    stack := segment.map Prod.snd, suspended := rest.map (List.map Prod.snd) }), ?_, top.reverse,
    ?_, rfl, ?_, rfl, rfl, ?_⟩
  · simp only [HeapMachine.endSegment?, h₄, h₂, List.map_cons, List.map_reverse]
  · rw [h₁, List.map_reverse]
  · refine ⟨ha.cursor, ha.reports, ha.size, segment, rest, rfl, rfl, rfl, rfl, hf.sublist ?_⟩
    exact List.sublist_append_right _ _
  · intro p hp
    exact hf.faces p (List.mem_append_left _ (List.mem_reverse.mp hp))

theorem endSegment (ha : Agrees m s) :
    Simulates (Machine.popMark op >>= fun _ => Pure.pure ()) m (s.endSegment?.map Prod.snd)
      fun _ => Agrees := by
  apply ha.popMark.map
  rintro _ _ _ ⟨_, _, _, ha', -⟩
  exact ha'

theorem popMarked (ha : Agrees m s) :
    Simulates (Machine.popMarked op) m s.popMarked?
      fun g m' o => Agrees m' o.2 ∧ Took s o.2 o.1 g.values := by
  apply ha.popMark.bind
  rintro slots m₁ ⟨_, s₁⟩ ⟨taken, rfl, rfl, ha₁, hheap, hpopped, hfaces⟩
  apply (ha₁.resolveAll hfaces).mono
  rintro g m₂ ⟨rs, s₂⟩ ⟨ha₂, htook⟩
  exact ⟨ha₂, htook.after hheap hpopped⟩

theorem popValues (ha : Agrees m s) {n : Nat} :
    Simulates (Machine.popValues op n) m (s.popMany? n)
      fun g m' o => Agrees m' o.2 ∧ Took s o.2 o.1 g.values := by
  intro g m' hp
  obtain ⟨hn, hr⟩ := Machine.popValues_ok hp
  obtain ⟨top, below, h₁, h₂, h₃, h₄, hf⟩ := ha.slots
  have hrest : Agrees { m with stack := m.stack.drop n } { s with stack := s.stack.drop n } := by
    refine ⟨ha.cursor, ha.reports, ha.size, top.drop n, below, ?_, ?_, h₃, h₄, hf.sublist ?_⟩
    · rw [h₁, List.map_drop]
    · rw [h₂, List.map_drop]
    · exact (List.drop_sublist n top).append (List.Sublist.refl _)
  have htaken : (m.stack.take n).reverse = (top.take n).reverse.map Prod.fst := by
    rw [h₁, List.map_reverse, List.map_take]
  have hrefs : (s.stack.take n).reverse = (top.take n).reverse.map Prod.snd := by
    rw [h₂, List.map_reverse, List.map_take]
  have hfaces : ∀ p ∈ (top.take n).reverse, Faces s.heap s.memo p := fun p hp =>
    hf.faces p (List.mem_append_left _ (List.mem_of_mem_take (List.mem_reverse.mp hp)))
  rw [htaken] at hr
  obtain ⟨_, ⟨⟩, ha', htook⟩ := hrest.resolveAll hfaces g m' hr
  refine ⟨_, ?_, ha', htook.after rfl rfl⟩
  rw [h₁, ← List.map_take, List.length_map] at hn
  simp only [HeapMachine.popMany?, hrefs, List.length_map, List.length_reverse, if_neg hn]

theorem push (ha : Agrees m s) {n : Layer Ref} {v : Value} (d : Nat)
    (hn : Heap.Settled.Rebuilds s.heap s.popped n v) :
    Agrees { m with stack := .owned ⟨v, d⟩ :: m.stack } (s.push n) := by
  obtain ⟨top, below, h₁, h₂, h₃, h₄, hf⟩ := ha.slots
  obtain ⟨hvalue, hin⟩ := hn
  have hslots : ∀ {heap : Heap} {r : Ref},
      Faithful m.memo s.memo heap s.popped ((.owned ⟨v, d⟩, r) :: (top ++ below.flatten)) →
      Agrees { m with stack := .owned ⟨v, d⟩ :: m.stack }
        { s with heap, stack := r :: s.stack } := fun {heap r} hf' =>
    ⟨ha.cursor, ha.reports, ha.size, (.owned ⟨v, d⟩, r) :: top, below, by rw [h₁]; rfl,
      by rw [h₂]; rfl, h₃, h₄, hf'⟩
  cases n with
  | leaf l => exact hslots (hf.pushLeaf d hvalue)
  | sequence kind items => exact hslots (hf.pushCell rfl hin d hvalue)
  | dict entries => exact hslots (hf.pushCell rfl hin d hvalue)
  | object typeName body => exact hslots (hf.pushCell rfl hin d hvalue)

theorem pushes (ha : Agrees m s) {n : Layer Ref} {v : Value} {d : Nat}
    (hn : Heap.Settled.Rebuilds s.heap s.popped n v) :
    Simulates (Machine.push op d v) m (some (s.push n)) fun _ => Agrees := by
  rintro ⟨⟩ m' hp
  obtain rfl := Machine.push_ok hp
  exact ⟨_, rfl, ha.push _ hn⟩

theorem get?_isSome (ha : Agrees m s) (k : Nat) : s.memo[k]?.isSome = m.memo[k]?.isSome := by
  obtain ⟨top, below, -, -, -, -, hf⟩ := ha.slots
  have hk := hf.memo k
  generalize m.memo[k]? = x at hk
  generalize s.memo[k]? = y at hk
  cases hk <;> rfl

theorem pushMemo (ha : Agrees m s) {k : Nat} :
    Simulates (Machine.pushMemo op k) m
      (s.memo[k]?.map fun r => { s with stack := r :: s.stack }) fun _ => Agrees := by
  rintro ⟨⟩ m' hp
  obtain ⟨hk, rfl⟩ := Machine.pushMemo_ok hp
  rw [← ha.get?_isSome] at hk
  obtain ⟨r, hr⟩ := Option.isSome_iff_exists.mp hk
  obtain ⟨top, below, h₁, h₂, h₃, h₄, hf⟩ := ha.slots
  exact ⟨{ s with stack := r :: s.stack }, by rw [hr]; rfl, ha.cursor, ha.reports, ha.size,
    (.memo k, r) :: top, below, by rw [h₁]; rfl, by rw [h₂]; rfl, h₃, h₄, hf.get hr⟩

theorem put (ha : Agrees m s) {k : Nat} {h : Held} {rest : List Slot}
    (hs : m.stack = .owned h :: rest) (hk : m.memo[k]? = none) :
    Simulates (Machine.put op k) m (s.bind? k) fun _ => Agrees := by
  rintro ⟨⟩ m' hp
  rw [Machine.start_put_owned hs] at hp
  cases hp
  obtain ⟨top, below, h₁, h₂, h₃, h₄, hf⟩ := ha.slots
  rw [hs] at h₁
  obtain ⟨⟨slot, r⟩, pairs, rfl, hslot, rfl⟩ := List.map_eq_cons_iff.mp h₁.symm
  change slot = .owned h at hslot
  subst hslot
  have hsk : s.memo[k]? = none := by
    have hsome := ha.get?_isSome k
    rw [hk] at hsome
    exact Option.isNone_iff_eq_none.mp (Option.isSome_eq_false_iff.mp hsome)
  refine ⟨{ s with memo := s.memo.insert k r }, by rw [HeapMachine.bind?, h₂]; rfl, ha.cursor,
    ha.reports, ?_, (.memo k, r) :: pairs, below, rfl, h₂, h₃, h₄, hf.bind hk⟩
  have hsize := ha.size
  rw [Std.TreeMap.size_insert, Std.TreeMap.size_insert, Std.TreeMap.contains_eq_isSome_getElem?,
    Std.TreeMap.contains_eq_isSome_getElem?, hk, hsk, hsize]
  rfl

theorem top (ha : Agrees m s) {h : Held} (ht : m.top? = some h) :
    ∃ r, s.stack.head? = some r ∧ Unfolds s.heap r h.value.normalize := by
  obtain ⟨slot, hslot, hh⟩ := Option.bind_eq_some_iff.mp ht
  obtain ⟨top, below, h₁, h₂, h₃, h₄, hf⟩ := ha.slots
  rw [h₁, List.head?_map, Option.map_eq_some_iff] at hslot
  obtain ⟨p, hp, rfl⟩ := hslot
  refine ⟨p.2, by rw [h₂, List.head?_map, hp]; rfl, ha.held (hf.faces p ?_) hh⟩
  exact List.mem_append_left _ (List.mem_of_mem_head? hp)

/-- A change of what the uppermost slot stands for, along with its cell. -/
theorem mapTop (ha : Agrees m s) {f : Held → Held} {heap : Heap} {r : Ref} {h : Held}
    (ht : m.top? = some h) (hr : s.stack.head? = some r) (hs : heap.Settled s.popped)
    (hnew : Unfolds heap r (f h).value.normalize)
    (hold : ∀ q u, (∀ a, r = .cell a → q ≠ .cell a) → Unfolds s.heap q u → Unfolds heap q u) :
    Agrees (m.mapTop f) { s with heap } := by
  obtain ⟨top, below, h₁, h₂, h₃, h₄, hf⟩ := ha.slots
  cases top with
  | nil =>
    rw [h₂] at hr
    cases hr
  | cons p pairs =>
    rw [h₂] at hr
    obtain rfl := Option.some.inj hr
    obtain ⟨slot, r⟩ := p
    have hstack : m.stack = slot :: pairs.map Prod.fst := h₁
    rw [Machine.top?, hstack, List.head?_cons, Option.bind_some] at ht
    cases slot with
    | owned g =>
      obtain rfl := Option.some.inj ht
      rw [Machine.mapTop_owned f hstack]
      exact ⟨ha.cursor, ha.reports, ha.size, (.owned (f g), r) :: pairs, below, rfl, h₂, h₃, h₄,
        hf.changeOwned hs hnew hold⟩
    | memo k =>
      have hk : m.memo[k]? = some h := ht
      have hmap : m.mapTop f = { m with memo := m.memo.insert k (f h) } := by
        rcases Machine.mapTop_memo f hstack with ⟨g, hg, hmap⟩ | ⟨hnone, -⟩
        · rw [hk] at hg
          obtain rfl := Option.some.inj hg
          exact hmap
        · rw [hk] at hnone
          cases hnone
      rw [hmap]
      refine ⟨ha.cursor, ha.reports, ?_, (.memo k, r) :: pairs, below, hstack, h₂, h₃, h₄,
        hf.changeMemo hs hnew hold⟩
      have hsize := ha.size
      rw [Std.TreeMap.size_insert, Std.TreeMap.contains_eq_isSome_getElem?, hk]
      exact hsize

theorem deepened (ha : Agrees m s) {h : Held} (ht : m.top? = some h) (n : Nat) :
    Agrees (m.deepened n) s := by
  obtain ⟨r, hr, hu⟩ := ha.top ht
  exact ha.mapTop ht hr ha.settled hu fun _ _ _ hq => hq

/-- The cell of a container or an object that is uppermost. -/
theorem topCell (ha : Agrees m s) {h : Held} (ht : m.top? = some h) (hn : h.value.nests) :
    ∃ a n, s.stack.head? = some (.cell a) ∧ s.heap[a]? = some n ∧
      h.value.normalize = (n.map s.heap.tree).value.normalize ∧
      ∀ c ∈ n.children, c.In s.popped := by
  obtain ⟨r, hr, hu⟩ := ha.top ht
  cases r with
  | leaf l =>
    have hleaf := Unfolds.unique hu (.leaf l)
    rw [← Value.nests_normalize, hleaf] at hn
    cases hn
  | cell a =>
    obtain ⟨n, hn⟩ := hu.exists_layer
    exact ⟨a, n, hr, hn, hu.unique (ha.settled.unfolds_cell hn), ha.settled.children a n hn⟩

/-- A write of the uppermost cell, if it went into no other value. -/
theorem write (ha : Agrees m s) {h : Held} {a : Nat} {n : Layer Ref} {w : Value}
    (ht : m.top? = some h) (hr : s.stack.head? = some (.cell a)) (hlt : a < s.heap.length)
    (hpopped : a ∉ s.popped) (hnests : n.nests) (hn : Heap.Settled.Rebuilds s.heap s.popped n w) :
    Agrees (m.mapTop fun h => { h with value := w }) { s with heap := s.heap.set a n } := by
  obtain ⟨hvalue, hin⟩ := hn
  refine ha.mapTop ht hr (ha.settled.set hpopped hnests hin) ?_ ?_
  · have hself : (s.heap.set a n)[a]? = some n := List.getElem?_set_self hlt
    rw [hvalue]
    exact .cell hself fun c hc =>
      ha.settled.unfolds_set_of_in hpopped n (hin c hc) (ha.settled.unfolds_tree (hin c hc))
  · intro q u hq hu
    exact ha.settled.unfolds_set_of_ne hpopped n (hq a rfl) hu

end Agrees

end PickledModel
