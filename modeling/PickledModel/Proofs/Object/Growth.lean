import PickledModel.Proofs.Bytes.Consumption
import PickledModel.Proofs.Object.Contents
import PickledModel.Proofs.Value.Worth

/-! How much larger calls and restored objects are than what they are made of. A
call gives a value worth at most eight more than its arguments, and an object
that is given a state grows by no more than the worth of the state. -/

set_option autoImplicit false

namespace PickledModel
open Value

theorem Value.worth_getElem_le (vs : List Value) :
    worthOf? vs[0]? + worthOf? vs[1]? + worthOf? vs[2]? ≤ worthAll vs := by
  match vs with
  | [] => exact Nat.le_refl 0
  | [v] => exact Nat.le_refl _
  | [v, w] => exact Nat.le_refl _
  | v :: w :: u :: vs =>
    simp only [worthAll_cons]
    change v.worth + w.worth + u.worth ≤ _
    omega

theorem Value.worth_of_descriptor? {v : Value} {d : Descriptor Value} (h : v.descriptor? = some d) :
    worthAll d.children + 1 = v.worth := by
  unfold Value.descriptor? at h
  split at h
  · cases h
    rw [worth_object]
    exact Nat.add_comm _ _
  · cases h

theorem Descriptor.make_worth {args : List Value} {d : Descriptor Value}
    (h : Descriptor.make args = .ok d) : worthAll d.children ≤ 2 + worthAll args := by
  obtain ⟨halign, hcopy, hstate⟩ := Descriptor.make_ok h
  have hargs := worth_getElem_le args
  have haligned := worth_getD_le args[1]?
  have hcopied := worth_getD_le args[2]?
  simp only [Descriptor.children, halign, hcopy, hstate, worthAll_cons, worthAll_nil]
  omega

theorem ArrayBody.make_worth (layout : ArrayLayout) (args : List Value) :
    worthAll (ArrayBody.make layout args).children ≤ 1 + worthAll args := by
  have hargs := worth_getElem_le args
  have hsubtype := worth_getD_le args[0]?
  simp only [ArrayBody.make, ArrayBody.children, worthAll_cons, worthAll_nil]
  omega

theorem TreeBody.make_worth (args : List Value) :
    worthAll (TreeBody.make args).children ≤ 7 + worthAll args := by
  have hargs := worth_getElem_le args
  have hfeatures := worth_getD_le args[0]?
  have hclasses := worth_getD_le args[1]?
  have houtputs := worth_getD_le args[2]?
  simp only [TreeBody.make, TreeBody.children, worthAll_cons, worthAll_nil, worth_none]
  omega

theorem Builder.make_worth (b : Builder) {args : List Value} {body : Body Value}
    (h : b.make args = .ok body) : worthAll body.children ≤ 7 + worthAll args := by
  cases b with
  | descriptor =>
    obtain ⟨d, hd, rfl⟩ := Except.map_ok h
    have := Descriptor.make_worth hd
    change worthAll d.children ≤ _
    omega
  | wrappedArray =>
    obtain rfl := Except.ok.inj h
    have := ArrayBody.make_worth .wrapped args
    change worthAll (ArrayBody.make .wrapped args).children ≤ _
    omega
  | inlinedArray =>
    obtain rfl := Except.ok.inj h
    have := ArrayBody.make_worth .inlined args
    change worthAll (ArrayBody.make .inlined args).children ≤ _
    omega
  | tree =>
    obtain rfl := Except.ok.inj h
    exact TreeBody.make_worth args
  | attributes =>
    obtain rfl := Except.ok.inj h
    exact Nat.zero_le _

namespace Call

theorem firstItems_worth {name : String} {args items : List Value}
    (h : firstItems name args = .ok items) : worthAll items ≤ worthAll args := by
  cases args with
  | nil =>
    obtain rfl := Except.ok.inj h
    exact Nat.le_refl 0
  | cons v args =>
    rw [firstItems] at h
    cases hi : v.items? with
    | none => simp [hi] at h
    | some found =>
      simp only [hi, Except.ok.injEq] at h
      subst h
      have := worth_of_items? hi
      rw [worthAll_cons]
      omega

theorem entry_worth {name : String} {v : Value} {e : Value × Value} (h : entry name v = .ok e) :
    e.1.worth + e.2.worth ≤ v.worth := by
  unfold entry at h
  split at h
  · next hi =>
    obtain rfl := Except.ok.inj h
    have := worth_of_items? hi
    simp only [worthAll_cons, worthAll_nil] at this
    dsimp only
    omega
  · cases h

theorem mapM_entry_worth {name : String} {items : List Value} {entries : List (Value × Value)}
    (h : items.mapM (entry name) = .ok entries) : worthEntries entries ≤ worthAll items := by
  induction items generalizing entries with
  | nil =>
    obtain rfl := Except.ok.inj h
    exact Nat.le_refl 0
  | cons v items ih =>
    rw [List.mapM_cons] at h
    obtain ⟨e, he, h⟩ := Except.bind_ok h
    obtain ⟨es, hes, h⟩ := Except.bind_ok h
    cases h
    have hone := entry_worth he
    have hrest := ih hes
    rw [worthEntries, List.map_cons, List.sum_cons, ← worthEntries, worthAll_cons]
    omega

theorem Builtin.apply_worth {name : String} (b : Builtin) {args : List Value} {v : Value}
    (h : b.apply name args = .ok v) : v.worth ≤ 1 + worthAll args := by
  have hset : ∀ kind : SequenceKind,
      (fun items => Value.sequence kind (distinctItems items)) <$> firstItems name args = .ok v →
      v.worth ≤ 1 + worthAll args := by
    intro kind h
    obtain ⟨items, hi, rfl⟩ := Except.map_ok h
    have hitems := firstItems_worth hi
    have hdistinct := worthAll_distinctItems_le items
    rw [worth_sequence]
    omega
  have hbytes : ∀ bs : Bytes, (Value.bytes bs).worth = 1 := fun bs => worth_eq _
  revert h
  fun_cases Builtin.apply name b args with
  | case8 =>
    rintro ⟨⟩
    rw [worth_dict]
    exact Nat.le_refl _
  | case9 u items hi =>
    intro h
    obtain ⟨entries, he, rfl⟩ := Except.map_ok h
    have hentries := mapM_entry_worth he
    have hitems := worth_of_items? hi
    rw [worth_dict, worthAll_cons, worthAll_nil]
    omega
  | case12 args => exact hset .set
  | case13 args => exact hset .frozenSet
  | _ =>
    rintro ⟨⟩
    try
      rw [hbytes]
      exact Nat.le_add_right _ _

theorem target_worth (name : String) (args : List Value) :
    worthAll (target name args).2 ≤ worthAll args := by
  unfold target
  split
  · split
    · exact Nat.zero_le _
    · exact Nat.le_refl _
  · exact Nat.le_refl _

theorem run_worth {r : Registry} {name : String} {args : List Value} {o : Outcome}
    (h : run r name args = .ok o) : o.value.worth ≤ 8 + worthAll args := by
  have htarget := target_worth name args
  rcases run_cases h with ⟨i, ho⟩ | ⟨name', b, hb⟩ | ⟨typeName, b, body, hb, ho⟩ | ⟨typeName, ho⟩
  · have hone : (Value.int i).worth = 1 := worth_eq _
    rw [ho]
    omega
  · have := Builtin.apply_worth b hb
    omega
  · have := Builder.make_worth b hb
    rw [ho, worth_object]
    omega
  · rw [ho, worth_object]
    exact Nat.le_trans (by decide) (Nat.le_add_right 8 _)

end Call

theorem Descriptor.restore_worth {d d' : Descriptor Value} {state : Value}
    (h : d.restore state = .ok d') :
    worthAll d'.children ≤ worthAll d.children + state.worth := by
  unfold Descriptor.restore at h
  split at h
  · cases h
  · next hi =>
    obtain rfl := Except.ok.inj h
    have hitems := worth_of_items? hi
    simp only [Descriptor.children, DescriptorState.children, worthAll_cons, worthAll_nil]
      at hitems ⊢
    omega
  · cases h

theorem TreeBody.restore_worth {t t' : TreeBody Value} {typeName : String} {state : Value}
    (h : t.restore typeName state = .ok t') :
    worthAll t'.children ≤ worthAll t.children + state.worth := by
  unfold TreeBody.restore at h
  split at h
  · obtain rfl := Except.ok.inj h
    have hnames : ["max_depth", "node_count", "nodes", "values"].Nodup := by decide
    have hparts := sum_get?_lt hnames state
    have hdepth := worth_getD_le (state.get? "max_depth")
    have hcount := worth_getD_le (state.get? "node_count")
    have hnodes := worth_getD_le (state.get? "nodes")
    have hvalues := worth_getD_le (state.get? "values")
    have hold := worth_pos t.maxDepth
    have := worth_pos t.nodeCount
    have := worth_pos t.nodes
    have := worth_pos t.values
    simp only [TreeBody.children, worthAll_cons, worthAll_nil, List.map_cons, List.map_nil,
      List.sum_cons, List.sum_nil] at hparts ⊢
    omega
  · cases h

theorem ArrayBody.expectDescriptor_worth {typeName : String} {v : Option Value}
    {d : Descriptor Value} (h : ArrayBody.expectDescriptor typeName v = .ok d) :
    worthAll d.children ≤ worthOf? v := by
  unfold ArrayBody.expectDescriptor at h
  split at h
  · next hd =>
    obtain rfl := Except.ok.inj h
    obtain ⟨w, rfl, hw⟩ := Option.bind_eq_some_iff.mp hd
    have := worth_of_descriptor? hw
    change _ ≤ w.worth
    omega
  · cases h

namespace ArrayBody
open Process

def reserve (s : ArrayBody Value × Cursor) : Nat := worthAll s.1.children + s.2.reserve

theorem onSecond_grows {α : Type} {p : Process Cursor α} {w : α → Nat} (h : Pays p w) :
    Grows (fun _ => 0) reserve p.onSecond 0 w :=
  h.on (fun _ _ => rfl) fun s t => by simp only [reserve]; omega

theorem skipPadding_pays : Pays skipPadding fun _ => 0 :=
  (read_free ((Cursor.word_takes 1).map _)).bind fun n => read_free (Cursor.skip_takes n.toNat)

theorem restoreWrapped_grows (typeName : String) (state : Value) :
    Grows (fun _ => 0) reserve (restoreWrapped typeName state) state.worth fun _ => 0 := by
  have hnames : ["subclass", "dtype"].Nodup := by decide
  have hparts := sum_get?_lt hnames state
  simp only [List.map_cons, List.map_nil, List.sum_cons, List.sum_nil] at hparts
  unfold restoreWrapped
  by_cases hk : state.kind ≠ .dict
  · rw [if_pos hk]
    exact Grows.throw_bind _ _ _ _
  rw [if_neg hk]
  have hdescriptor : Grows (fun _ => 0) reserve
      (Process.ofExcept (expectDescriptor typeName (state.get? "dtype")))
      state.worth fun d => worthAll d.children + worthOf? (state.get? "subclass") := by
    apply Grows.ofExcept
    intro d hd
    have := expectDescriptor_worth hd
    omega
  apply hdescriptor.bind
  intro d
  have fill : ∀ data : Bytes, ∀ shape : List Nat,
      Grows (fun _ => 0) reserve
        (modify fun s => ({ s.1 with data, descriptor := some d, shape }, s.2))
        (worthAll d.children) fun _ => 0 := by
    intro data shape
    apply Grows.modify
    · exact fun _ => rfl
    · intro s
      simp only [reserve, children, worthAll_cons]
      omega
  apply Grows.bind (w := fun _ => worthAll d.children + worthOf? (state.get? "subclass"))
  · exact Grows.ofExcept fun _ _ => Nat.le_refl _
  intro shape
  apply Grows.bind (w := fun _ => worthAll d.children)
  · apply Grows.modify
    · exact fun _ => rfl
    · intro s
      have hsubclass := worth_getD_le (state.get? "subclass")
      have hold := worth_pos s.1.subtype
      simp only [reserve, children, worthAll_cons]
      omega
  intro _
  cases Shape.product? d.elementType.itemSize shape with
  | none => exact Grows.throw _ _
  | some size =>
    have hread := (onSecond_grows (read_free (Cursor.take_takes size))).spare (worthAll d.children)
    have hpayload := hread.bind fun data => fill data shape
    by_cases hpad : isPadded state = true
    · simp only [hpad, if_true]
      exact ((onSecond_grows skipPadding_pays).spare _).bind fun _ => hpayload
    · simp only [hpad]
      exact hpayload

theorem restoreInlined_grows (typeName : String) (state : Value) :
    Grows (fun _ => 0) (fun a : ArrayBody Value => worthAll a.children)
      (restoreInlined typeName state) state.worth fun _ => 0 := by
  unfold restoreInlined
  cases hi : state.items? with
  | none => exact Grows.throw _ _
  | some items =>
    have hitems := worth_of_items? hi
    dsimp only
    split
    · exact Grows.throw _ _
    · next version shape typeCode columnMajor raw heq =>
      cases heq
      simp only [worthAll_cons, worthAll_nil] at hitems
      have hdescriptor : Grows (fun _ => 0) (fun a : ArrayBody Value => worthAll a.children)
          (Process.ofExcept (expectDescriptor typeName (some typeCode)))
          state.worth fun d => worthAll d.children := by
        apply Grows.ofExcept
        intro d hd
        have := expectDescriptor_worth hd
        change _ ≤ typeCode.worth at this
        omega
      apply hdescriptor.bind
      intro d
      apply Grows.bind (w := fun _ => worthAll d.children)
      · exact Grows.ofExcept fun _ _ => Nat.le_refl _
      intro shape
      apply Grows.bind (w := fun _ => worthAll d.children)
      · exact Grows.modify (fun _ => rfl) fun _ => Nat.le_refl _
      intro _
      cases raw.bytes? with
      | none => exact Grows.throw _ _
      | some data =>
        apply Grows.modify
        · exact fun _ => rfl
        · intro a
          simp only [children, worthAll_cons]
          omega
    · exact Grows.throw _ _

theorem restore_grows (typeName : String) (state : Value) :
    Grows (fun _ => 0) reserve (restore typeName state) state.worth fun _ => 0 := by
  apply Grows.get
  intro s
  cases s.1.layout with
  | wrapped => exact restoreWrapped_grows typeName state
  | inlined =>
    apply (restoreInlined_grows typeName state).on
    · exact fun _ _ => rfl
    · intro s a
      simp only [reserve]
      omega

end ArrayBody

section
open Process

theorem Members.set_worth (name : String) (v : Value) (ms : List (String × Value)) :
    worthAll ((Members.set name v ms).map Prod.snd) ≤ worthAll (ms.map Prod.snd) + v.worth := by
  induction ms with
  | nil =>
    simp only [Members.set, List.map_cons, List.map_nil, worthAll_cons]
    omega
  | cons m ms ih =>
    rw [Members.set]
    by_cases h : m.1 = name
    · simp only [if_pos h, List.map_cons, worthAll_cons]
      omega
    · simp only [if_neg h, List.map_cons, worthAll_cons]
      omega

theorem setAttributes_grows (typeName : String) (entries : List (Value × Value)) :
    Grows (fun _ => 0) (fun ms : List (String × Value) => worthAll (ms.map Prod.snd))
      (setAttributes typeName entries) (worthEntries entries) fun _ => 0 := by
  induction entries with
  | nil => exact Grows.pure (Nat.le_refl 0)
  | cons e entries ih =>
    obtain ⟨k, v⟩ := e
    rw [setAttributes]
    cases k.string? with
    | none => exact Grows.throw_bind _ _ _ _
    | some name =>
      apply Grows.bind (w := fun _ => worthEntries entries)
      · apply Grows.modify
        · exact fun _ => rfl
        · intro ms
          have := Members.set_worth name v ms
          rw [worthEntries, worthEntries, List.map_cons, List.sum_cons]
          dsimp only
          omega
      · exact fun _ => ih

theorem mergeState_grows (typeName : String) (state : Value) :
    Grows (fun _ => 0) (fun ms : List (String × Value) => worthAll (ms.map Prod.snd))
      (mergeState typeName state) state.worth fun _ => 0 := by
  fun_induction mergeState typeName state with
  | case1 => exact Grows.pure (Nat.zero_le _)
  | case2 entries =>
    apply (setAttributes_grows typeName entries).raise
    rw [worth_dict]
    omega
  | case3 state slots ih ih' =>
    have hworth : (Value.tuple [state, slots]).worth = 1 + (state.worth + slots.worth) := by
      rw [worth_sequence]
      rfl
    rw [hworth]
    apply Grows.bind (w := fun _ => slots.worth)
    · apply (ih.frame slots.worth).mono
      · omega
      · intro _
        omega
    · exact fun _ => ih'
  | case4 v => exact Grows.throw _ _

/-- A restored object is worth at most what it was and its state; what it reads
from the stream is worth nothing. -/
theorem Body.restore_grows (typeName : String) (state : Value) :
    Grows (fun _ => 0) (fun s : Body Value × Cursor => worthAll s.1.children + s.2.reserve)
      (Body.restore typeName state) state.worth fun _ => 0 := by
  rintro ⟨body, cursor⟩
  refine ⟨Nat.le_refl 0, fun _ => ?_⟩
  have hresult : ∀ r : Except LoadError Unit, worthOf (fun _ => 0) r = 0 := by
    intro r
    cases r <;> rfl
  rw [hresult]
  change worthAll (Body.restore typeName state (body, cursor)).2.1.children +
    (Body.restore typeName state (body, cursor)).2.2.reserve ≤ _
  cases body with
  | descriptor d =>
    rw [Body.restore]
    cases hr : d.restore state with
    | ok d' =>
      have := Descriptor.restore_worth hr
      simp only [Body.children]
      omega
    | error e =>
      simp only [Body.children]
      omega
  | array a =>
    have h := (ArrayBody.restore_grows typeName state (a, cursor)).size_le rfl
    rw [hresult] at h
    exact h
  | tree t =>
    rw [Body.restore]
    cases hr : t.restore typeName state with
    | ok t' =>
      have := TreeBody.restore_worth hr
      simp only [Body.children]
      omega
    | error e =>
      simp only [Body.children]
      omega
  | attributes entries =>
    have h := (mergeState_grows typeName state entries).size_le rfl
    rw [hresult] at h
    rw [Body.restore]
    simp only [Body.children]
    omega
  | unresolved =>
    rw [Body.restore]
    dsimp only
    omega

end

end PickledModel
