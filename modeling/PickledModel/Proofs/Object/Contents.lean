import PickledModel.Object.Call
import PickledModel.Proofs.Process.Invariant
import PickledModel.Proofs.Process.Outcome
import PickledModel.Proofs.Value.Members

/-! What objects hold comes from what they are given. A property that passes
from a value to the values inside it, and that none has, is had by everything
inside the result of a call if the arguments have it, and by everything inside
a restored object if the state and the former contents have it. -/

set_option autoImplicit false

namespace PickledModel

structure Hereditary (p : Value → Prop) : Prop where
  none : p .none
  child : ∀ v, p v → ∀ c ∈ v.children, p c

variable {p : Value → Prop}

namespace Hereditary
open Value

theorem items (hp : Hereditary p) {v : Value} {items : List Value} (hv : p v)
    (h : v.items? = some items) : ∀ w ∈ items, p w := by
  have hc := hp.child v hv
  unfold Value.items? at h
  split at h
  · obtain rfl := Option.some.inj h
    exact hc
  · obtain rfl := Option.some.inj h
    exact hc
  · cases h

theorem get (hp : Hereditary p) {v w : Value} {key : String} (hv : p v)
    (h : v.get? key = some w) : p w := by
  unfold Value.get? at h
  split at h
  · obtain ⟨e, he, rfl⟩ := Option.map_eq_some_iff.mp h
    have hm := List.mem_of_find?_eq_some he
    exact hp.child _ hv e.2 (List.mem_flatMap.mpr ⟨e, hm, by simp⟩)
  · cases h

theorem getD (hp : Hereditary p) {v : Value} (hv : p v) (key : String) :
    p ((v.get? key).getD .none) := by
  cases h : v.get? key with
  | some w => exact hp.get hv h
  | none => exact hp.none

theorem getElem (hp : Hereditary p) {vs : List Value} (h : ∀ v ∈ vs, p v) (n : Nat) :
    p (vs[n]?.getD .none) := by
  cases hn : vs[n]? with
  | some v => exact h v (List.mem_of_getElem? hn)
  | none => exact hp.none

theorem descriptor (hp : Hereditary p) {v : Value} {d : Descriptor Value} (hv : p v)
    (h : v.descriptor? = some d) : ∀ c ∈ d.children, p c := by
  have hc := hp.child v hv
  unfold Value.descriptor? at h
  split at h
  · obtain rfl := Option.some.inj h
    exact hc
  · cases h

theorem expectDescriptor (hp : Hereditary p) {typeName : String} {v : Option Value}
    {d : Descriptor Value} (hv : ∀ w, v = some w → p w)
    (h : ArrayBody.expectDescriptor typeName v = .ok d) : ∀ c ∈ d.children, p c := by
  unfold ArrayBody.expectDescriptor at h
  split at h
  · next e hd =>
    obtain rfl := Except.ok.inj h
    obtain ⟨w, hw, hd⟩ := Option.bind_eq_some_iff.mp hd
    exact hp.descriptor (hv w hw) hd
  · cases h

end Hereditary

theorem Descriptor.make_ok {args : List Value} {d : Descriptor Value}
    (h : Descriptor.make args = .ok d) :
    d.align = args[1]?.getD .none ∧ d.copy = args[2]?.getD .none ∧ d.state = none := by
  obtain ⟨code, -, h⟩ := Except.bind_ok h
  obtain ⟨t, -, h⟩ := Except.bind_ok h
  cases h
  exact ⟨rfl, rfl, rfl⟩

theorem Descriptor.make_contents (hp : Hereditary p) {args : List Value} {d : Descriptor Value}
    (hargs : ∀ v ∈ args, p v) (h : Descriptor.make args = .ok d) : ∀ c ∈ d.children, p c := by
  obtain ⟨halign, hcopy, hstate⟩ := Descriptor.make_ok h
  simp [Descriptor.children, halign, hcopy, hstate, hp.getElem hargs]

theorem Descriptor.restore_contents (hp : Hereditary p) {d d' : Descriptor Value} {state : Value}
    (hd : ∀ c ∈ d.children, p c) (hs : p state) (h : d.restore state = .ok d') :
    ∀ c ∈ d'.children, p c := by
  unfold Descriptor.restore at h
  split at h
  · cases h
  · next hi =>
    obtain rfl := Except.ok.inj h
    have hitems := hp.items hs hi
    simp only [Descriptor.children, DescriptorState.children, List.forall_mem_cons] at hd ⊢
    simp only [List.forall_mem_cons] at hitems
    exact ⟨hd.1, hd.2.1, hitems⟩
  · cases h

theorem ArrayBody.make_contents (hp : Hereditary p) (layout : ArrayLayout) {args : List Value}
    (hargs : ∀ v ∈ args, p v) : ∀ c ∈ (ArrayBody.make layout args).children, p c := by
  simp [ArrayBody.make, ArrayBody.children, hp.getElem hargs]

theorem TreeBody.make_contents (hp : Hereditary p) {args : List Value}
    (hargs : ∀ v ∈ args, p v) : ∀ c ∈ (TreeBody.make args).children, p c := by
  simp [TreeBody.make, TreeBody.children, hp.getElem hargs, hp.none]

theorem TreeBody.restore_contents (hp : Hereditary p) {t t' : TreeBody Value} {typeName : String}
    {state : Value} (ht : ∀ c ∈ t.children, p c) (hs : p state)
    (h : t.restore typeName state = .ok t') : ∀ c ∈ t'.children, p c := by
  unfold TreeBody.restore at h
  split at h
  · obtain rfl := Except.ok.inj h
    simp only [TreeBody.children, List.forall_mem_cons] at ht ⊢
    simp [ht.1, ht.2.1, ht.2.2.1, hp.getD hs]
  · cases h

namespace ArrayBody
open Process

theorem expectShape_length_le {typeName : String} {v : Option Value} {shape : List Nat}
    (h : expectShape typeName v = .ok shape) : shape.length ≤ maxDimensions := by
  unfold expectShape at h
  split at h
  · split at h
    · next hle =>
      obtain rfl := Except.ok.inj h
      exact hle
    · cases h
  · cases h

theorem take_keeps (n : Nat) :
    Keeps (fun _ => True) (read (Cursor.take n)) fun data => data.length = n := by
  intro c _
  refine ⟨trivial, fun data h => ?_⟩
  cases hr : Cursor.take n c with
  | error s =>
    rw [start_read_error hr] at h
    cases h
  | ok o =>
    obtain ⟨bs, c'⟩ := o
    rw [start_read_ok hr] at h
    cases h
    exact (Cursor.take_eq_ok_iff.mp hr).2.1

/-- Where a wrapped array is changed: first in what describes it, and at the end,
with a payload of the size that its type and its shape make. -/
theorem restoreWrapped_keeps {i : ArrayBody Value → Prop} {typeName : String} {state : Value}
    (hdescribe : ∀ a, i a →
      i { a with
        subtype := (state.get? "subclass").getD .none
        order := (state.get? "order").bind Value.string?
        allowMmap := (state.get? "allow_mmap").bind Value.bool? })
    (hfill : ∀ (a : ArrayBody Value) (d : Descriptor Value) (shape : List Nat) (data : Bytes),
      expectDescriptor typeName (state.get? "dtype") = .ok d → shape.length ≤ maxDimensions →
      Shape.product? d.elementType.itemSize shape = some data.length → i a →
      i { a with data, descriptor := some d, shape }) :
    Keeps (fun s : ArrayBody Value × Cursor => i s.1) (restoreWrapped typeName state)
      fun _ => True := by
  have hstream : ∀ {α : Type} {q : Process Cursor α} {w : α → Prop},
      Keeps (fun _ => True) q w → Keeps (fun s : ArrayBody Value × Cursor => i s.1) q.onSecond w :=
    fun h => h.on (fun _ _ => trivial) fun _ _ hi _ => hi
  unfold restoreWrapped
  by_cases hk : state.kind ≠ .dict
  · rw [if_pos hk]
    exact (Keeps.throw (q := fun _ => False) _).bind fun _ h => h.elim
  rw [if_neg hk]
  apply (Keeps.ofExcept _).bind
  intro d hd
  apply (Keeps.ofExcept _).bind
  intro shape hshape
  apply Keeps.bind (q := fun _ => True) (Keeps.modify fun s hi => hdescribe s.1 hi)
  intro _ _
  cases hsize : Shape.product? d.elementType.itemSize shape with
  | none => exact Keeps.throw _
  | some size =>
    have fill : Keeps (fun s : ArrayBody Value × Cursor => i s.1)
        (do
          let data ← (read (Cursor.take size)).onSecond
          modify fun s => ({ s.1 with data, descriptor := some d, shape }, s.2))
        fun _ => True := by
      apply (hstream (take_keeps size)).bind
      intro data hdata
      apply Keeps.modify
      intro s hi
      exact hfill s.1 d shape data hd (expectShape_length_le hshape) (hdata ▸ hsize) hi
    by_cases hpad : isPadded state = true
    · simp only [hpad, if_true]
      exact (hstream (Keeps.trivially _)).bind fun _ _ => fill
    · simp only [hpad]
      exact fill

/-- Where an inlined array is changed: in what describes it, and in its payload. -/
theorem restoreInlined_keeps {i : ArrayBody Value → Prop} {typeName : String} {state : Value}
    (hdescribe : ∀ a shape version order, i a → i { a with shape, version, order })
    (hfill : ∀ (a : ArrayBody Value) (d : Descriptor Value) (v : Value) (items : List Value)
      (data : Bytes), state.items? = some items → v ∈ items →
      expectDescriptor typeName (some v) = .ok d → i a →
      i { a with data, descriptor := some d }) :
    Keeps i (restoreInlined typeName state) fun _ => True := by
  unfold restoreInlined
  cases hi : state.items? with
  | none => exact Keeps.throw _
  | some items =>
    split
    · exact Keeps.throw _
    · next version shape typeCode columnMajor raw heq =>
      obtain rfl := Option.some.inj heq
      apply (Keeps.ofExcept _).bind
      intro d hd
      apply (Keeps.ofExcept _).bind
      intro shape _
      apply Keeps.bind (q := fun _ => True) (Keeps.modify fun a ha => hdescribe a _ _ _ ha)
      intro _ _
      cases raw.bytes? with
      | none => exact Keeps.throw _
      | some data => exact Keeps.modify fun a ha => hfill a d typeCode _ data hi (by simp) hd ha
    · exact Keeps.throw _

theorem restoreWrapped_contents (hp : Hereditary p) {typeName : String} {state : Value}
    (hs : p state) :
    Keeps (fun s : ArrayBody Value × Cursor => ∀ c ∈ s.1.children, p c)
      (restoreWrapped typeName state) fun _ => True := by
  apply restoreWrapped_keeps (i := fun a => ∀ c ∈ a.children, p c)
  · intro a h
    simp only [children, List.forall_mem_cons] at h ⊢
    exact ⟨hp.getD hs _, h.2⟩
  · intro a d shape data hd _ _ h
    have hchildren := hp.expectDescriptor (fun w hw => hp.get hs hw) hd
    exact List.forall_mem_cons.mpr ⟨h a.subtype (by simp [children]), hchildren⟩

theorem restoreInlined_contents (hp : Hereditary p) {typeName : String} {state : Value}
    (hs : p state) :
    Keeps (fun a : ArrayBody Value => ∀ c ∈ a.children, p c)
      (restoreInlined typeName state) fun _ => True := by
  apply restoreInlined_keeps
  · exact fun a _ _ _ h => h
  · intro a d v items data hi hv hd h
    have hitem := hp.items hs hi v hv
    have hchildren := hp.expectDescriptor (fun w hw => Option.some.inj hw ▸ hitem) hd
    exact List.forall_mem_cons.mpr ⟨h a.subtype (by simp [children]), hchildren⟩

theorem restore_contents (hp : Hereditary p) {typeName : String} {state : Value}
    (hs : p state) :
    Keeps (fun s : ArrayBody Value × Cursor => ∀ c ∈ s.1.children, p c)
      (restore typeName state) fun _ => True := by
  apply Keeps.get.bind
  intro s _
  cases s.1.layout with
  | wrapped => exact restoreWrapped_contents hp hs
  | inlined => exact (restoreInlined_contents hp hs).on (fun _ h => h) fun _ _ _ h => h

end ArrayBody

section
open Process

variable {i : List (String × Value) → Prop}

theorem setAttributes_keeps {typeName : String} {entries : List (Value × Value)}
    (hset : ∀ e ∈ entries, ∀ name ms, i ms → i (Members.set name e.2 ms)) :
    Keeps i (setAttributes typeName entries) fun _ => True := by
  induction entries with
  | nil => exact Keeps.pure trivial
  | cons e entries ih =>
    obtain ⟨k, v⟩ := e
    obtain ⟨hv, hes⟩ := List.forall_mem_cons.mp hset
    rw [setAttributes]
    cases k.string? with
    | some name =>
      have hfirst : Keeps i (modify (Members.set name v)) fun _ => True :=
        Keeps.modify fun ms hms => hv name ms hms
      exact hfirst.bind fun _ _ => ih hes
    | none => exact (Keeps.throw (q := fun _ => False) _).bind fun _ h => h.elim

/-- Where attributes are changed: each value of a state is set under a name. -/
theorem mergeState_keeps (hp : Hereditary p) (typeName : String) {state : Value}
    (hset : ∀ v, p v → ∀ name ms, i ms → i (Members.set name v ms)) (hs : p state) :
    Keeps i (mergeState typeName state) fun _ => True := by
  fun_induction mergeState typeName state with
  | case1 => exact Keeps.pure trivial
  | case2 entries =>
    apply setAttributes_keeps
    intro e he
    exact hset e.2 (hp.child _ hs e.2 (List.mem_flatMap.mpr ⟨e, he, by simp⟩))
  | case3 state slots ih ih' =>
    have hc := hp.child _ hs
    exact (ih (hc state (by simp [Value.children]))).bind fun _ _ =>
      ih' (hc slots (by simp [Value.children]))
  | case4 v => exact Keeps.throw _

theorem mergeState_contents (hp : Hereditary p) (typeName : String) {state : Value}
    (hs : p state) :
    Keeps (fun ms : List (String × Value) => ∀ m ∈ ms, p m.2)
      (mergeState typeName state) fun _ => True :=
  mergeState_keeps hp typeName (fun _ hv _ _ hms => Members.set_forall hv hms) hs

end

/-- What a restored object holds, it held before or had from its state; a
failed restoration is no exception. -/
theorem Body.restore_contents (hp : Hereditary p) (typeName : String) {state : Value}
    (hs : p state) :
    Process.Keeps (fun s : Body Value × Cursor => ∀ c ∈ s.1.children, p c)
      (Body.restore typeName state) fun _ => True := by
  rintro ⟨body, cursor⟩ hb
  refine ⟨?_, fun _ _ => trivial⟩
  change ∀ c ∈ (Body.restore typeName state (body, cursor)).2.1.children, p c
  cases body with
  | descriptor d =>
    rw [Body.restore]
    cases hr : d.restore state with
    | ok d' => exact Descriptor.restore_contents hp hb hs hr
    | error e => exact hb
  | array a => exact (ArrayBody.restore_contents hp hs (a, cursor) hb).1
  | tree t =>
    rw [Body.restore]
    cases hr : t.restore typeName state with
    | ok t' => exact TreeBody.restore_contents hp hb hs hr
    | error e => exact hb
  | attributes entries =>
    have hm := mergeState_contents hp typeName hs entries
      fun m hm => hb m.2 (List.mem_map_of_mem hm)
    intro c hc
    obtain ⟨m, hin, rfl⟩ := List.mem_map.mp hc
    exact hm.1 m hin
  | unresolved => exact hb

theorem Builder.make_contents (hp : Hereditary p) (b : Builder) {args : List Value}
    {body : Body Value} (hargs : ∀ v ∈ args, p v) (h : b.make args = .ok body) :
    ∀ c ∈ body.children, p c := by
  cases b with
  | descriptor =>
    obtain ⟨d, hd, rfl⟩ := Except.map_ok h
    exact Descriptor.make_contents hp hargs hd
  | wrappedArray =>
    obtain rfl := Except.ok.inj h
    exact ArrayBody.make_contents hp .wrapped hargs
  | inlinedArray =>
    obtain rfl := Except.ok.inj h
    exact ArrayBody.make_contents hp .inlined hargs
  | tree =>
    obtain rfl := Except.ok.inj h
    exact TreeBody.make_contents hp hargs
  | attributes =>
    obtain rfl := Except.ok.inj h
    simp [Body.children]

namespace Call
open Value

theorem firstItems_contents (hp : Hereditary p) {name : String} {args items : List Value}
    (hargs : ∀ v ∈ args, p v) (h : firstItems name args = .ok items) : ∀ v ∈ items, p v := by
  cases args with
  | nil =>
    obtain rfl := Except.ok.inj h
    simp
  | cons v args =>
    rw [firstItems] at h
    cases hi : v.items? with
    | none => simp [hi] at h
    | some found =>
      simp only [hi, Except.ok.injEq] at h
      subst h
      exact hp.items (hargs v (by simp)) hi

theorem entry_contents (hp : Hereditary p) {name : String} {v : Value} {e : Value × Value}
    (hv : p v) (h : entry name v = .ok e) : p e.1 ∧ p e.2 := by
  unfold entry at h
  split at h
  · next hi =>
    obtain rfl := Except.ok.inj h
    have := hp.items hv hi
    exact ⟨this _ (by simp), this _ (by simp)⟩
  · cases h

theorem mapM_entry_contents (hp : Hereditary p) {name : String} {items : List Value}
    {entries : List (Value × Value)} (hi : ∀ v ∈ items, p v)
    (h : items.mapM (entry name) = .ok entries) : ∀ e ∈ entries, p e.1 ∧ p e.2 := by
  induction items generalizing entries with
  | nil =>
    obtain rfl := Except.ok.inj h
    simp
  | cons v items ih =>
    obtain ⟨hv, hvs⟩ := List.forall_mem_cons.mp hi
    rw [List.mapM_cons] at h
    obtain ⟨e, he, h⟩ := Except.bind_ok h
    obtain ⟨es, hes, h⟩ := Except.bind_ok h
    cases h
    exact List.forall_mem_cons.mpr ⟨entry_contents hp hv he, ih hvs hes⟩

theorem Builtin.apply_contents (hp : Hereditary p) {name : String} (b : Builtin)
    {args : List Value} {v : Value} (hargs : ∀ v ∈ args, p v) (h : b.apply name args = .ok v) :
    ∀ c ∈ v.children, p c := by
  have hset : ∀ kind : SequenceKind,
      (fun items => Value.sequence kind (distinctItems items)) <$> firstItems name args = .ok v →
      ∀ c ∈ v.children, p c := by
    intro kind h
    obtain ⟨items, hi, rfl⟩ := Except.map_ok h
    exact fun c hc => firstItems_contents hp hargs hi c (distinctItems_subset items hc)
  revert h
  fun_cases Builtin.apply name b args with
  | case9 u items hi =>
    intro h
    obtain ⟨entries, he, rfl⟩ := Except.map_ok h
    exact forall_mem_entries (mapM_entry_contents hp (hp.items (hargs u (by simp)) hi) he)
  | case12 args => exact hset .set
  | case13 args => exact hset .frozenSet
  | _ =>
    rintro ⟨⟩
    try simp [children]

theorem target_contents (name : String) {args : List Value}
    (hargs : ∀ v ∈ args, p v) : ∀ v ∈ (target name args).2, p v := by
  unfold target
  split
  · split
    · simp
    · exact hargs
  · exact hargs

theorem scalar_leaf {name : String} {args : List Value} {v : Value}
    (h : ArrayBody.scalar name args = .ok v) : ∃ i, v = .int i := by
  obtain ⟨d, -, h⟩ := Except.bind_ok h
  split at h
  · cases h
  split at h
  · split at h
    · exact ⟨_, (Except.ok.inj h).symm⟩
    · cases h
  · cases h

/-- A call that succeeds decodes a scalar, rebuilds a plain value or makes an object,
whose body is empty if no builder is known for it. -/
theorem run_cases {r : Registry} {name : String} {args : List Value} {o : Outcome}
    (h : run r name args = .ok o) :
    (∃ i, o.value = .int i) ∨
      (∃ name' b, Builtin.apply name' b (target name args).2 = .ok o.value) ∨
      (∃ typeName b body, Builder.make b (target name args).2 = .ok body ∧
        o.value = .object typeName body) ∨
      ∃ typeName, o.value = .object typeName .unresolved := by
  unfold run at h
  generalize target name args = t at h ⊢
  obtain ⟨name, args⟩ := t
  dsimp only at h ⊢
  split at h
  · obtain ⟨v, hv, h⟩ := Except.bind_ok h
    cases h
    exact .inl (scalar_leaf hv)
  split at h
  · next b _ =>
    obtain ⟨v, hv, h⟩ := Except.bind_ok h
    cases h
    exact .inr (.inl ⟨name, b, hv⟩)
  unfold build at h
  split at h
  · next b _ =>
    obtain ⟨body, hbody, h⟩ := Except.bind_ok h
    cases h
    exact .inr (.inr (.inl ⟨name, b, body, hbody, rfl⟩))
  · cases h
    exact .inr (.inr (.inr ⟨name, rfl⟩))

/-- What the result of a call holds comes from the arguments. -/
theorem run_contents (hp : Hereditary p) {r : Registry} {name : String} {args : List Value}
    {o : Outcome} (hargs : ∀ v ∈ args, p v) (h : run r name args = .ok o) :
    ∀ c ∈ o.value.children, p c := by
  have htarget := target_contents name hargs
  rcases run_cases h with ⟨i, ho⟩ | ⟨name', b, hb⟩ | ⟨typeName, b, body, hb, ho⟩ | ⟨typeName, ho⟩
  · simp [ho, children]
  · exact Builtin.apply_contents hp b htarget hb
  · rw [ho]
    exact Builder.make_contents hp b htarget hb
  · simp [ho, children, Body.children]

end Call

end PickledModel
