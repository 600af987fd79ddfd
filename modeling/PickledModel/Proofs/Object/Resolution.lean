import PickledModel.Proofs.Value.Throughout

/-! How calls resolve names. A call that succeeds gives an ordinary value, or an
object of the name it stands for with a body of the kind that the registry knows
for that name. Restoring an object never changes the kind of its body. -/

set_option autoImplicit false

namespace PickledModel

def ArrayLayout.builder : ArrayLayout → Builder
  | .wrapped => .wrappedArray
  | .inlined => .inlinedArray

def Body.builder? {α : Type} : Body α → Option Builder
  | .descriptor _ => some .descriptor
  | .array a => some a.layout.builder
  | .tree _ => some .tree
  | .attributes _ => some .attributes
  | .unresolved => none

theorem Body.builder?_eq_attributes {α : Type} {b : Body α} (h : b.builder? = some .attributes) :
    ∃ entries, b = .attributes entries := by
  cases b with
  | attributes entries => exact ⟨entries, rfl⟩
  | array a =>
    obtain ⟨_ | _, _, _, _, _, _, _, _⟩ := a <;> cases h
  | _ => cases h

theorem Builder.make_builder? {b : Builder} {args : List Value} {body : Body Value}
    (h : b.make args = .ok body) : body.builder? = some b := by
  cases b with
  | descriptor =>
    obtain ⟨d, -, rfl⟩ := Except.map_ok h
    rfl
  | _ =>
    obtain rfl := Except.ok.inj h
    rfl

namespace ArrayBody
open Process

theorem restoreWrapped_layout (typeName : String) (state : Value) (layout : ArrayLayout) :
    Keeps (fun s : ArrayBody Value × Cursor => s.1.layout = layout)
      (restoreWrapped typeName state) fun _ => True :=
  restoreWrapped_keeps (i := fun a => a.layout = layout) (fun _ h => h)
    fun _ _ _ _ _ _ _ h => h

theorem restoreInlined_layout (typeName : String) (state : Value) (layout : ArrayLayout) :
    Keeps (fun a : ArrayBody Value => a.layout = layout)
      (restoreInlined typeName state) fun _ => True :=
  restoreInlined_keeps (fun _ _ _ _ h => h) fun _ _ _ _ _ _ _ _ h => h

theorem restore_layout (typeName : String) (state : Value) (layout : ArrayLayout) :
    Keeps (fun s : ArrayBody Value × Cursor => s.1.layout = layout)
      (restore typeName state) fun _ => True := by
  apply Keeps.get.bind
  intro s _
  cases s.1.layout with
  | wrapped => exact restoreWrapped_layout typeName state layout
  | inlined => exact (restoreInlined_layout typeName state layout).on (fun _ h => h) fun _ _ _ h => h

end ArrayBody

/-- Restored or not, a body is of the kind that it was made with. -/
theorem Body.restore_builder? (typeName : String) (state : Value) (body : Body Value) (c : Cursor) :
    ((Body.restore typeName state).start (body, c)).2.1.builder? = body.builder? := by
  change (Body.restore typeName state (body, c)).2.1.builder? = _
  cases body with
  | descriptor d =>
    rw [Body.restore]
    cases d.restore state <;> rfl
  | array a =>
    have hlayout := (ArrayBody.restore_layout typeName state a.layout (a, c) rfl).1
    exact congrArg (fun l : ArrayLayout => some l.builder) hlayout
  | tree t =>
    rw [Body.restore]
    cases t.restore typeName state <;> rfl
  | attributes entries => rfl
  | unresolved => rfl

namespace Call

/-- The name of a call that no rule resolves: it is none of the names that
decode a scalar or rebuild a plain value, and the registry does not know it. -/
def unknown? (r : Registry) (name : String) (args : List Value) : Option String :=
  let name := (target name args).1
  if name ∈ scalars ∨ (builtin? name).isSome ∨ (r.resolve? name).isSome then none else some name

theorem Builtin.apply_ordinary {name : String} {b : Builtin} {args : List Value} {v : Value}
    (h : b.apply name args = .ok v) : v.Ordinary := by
  revert h
  fun_cases Builtin.apply name b args with
  | case9 u items hi =>
    intro h
    obtain ⟨entries, -, rfl⟩ := Except.map_ok h
    trivial
  | case12 args | case13 args =>
    intro h
    obtain ⟨items, -, rfl⟩ := Except.map_ok h
    trivial
  | _ =>
    rintro ⟨⟩
    try trivial

inductive Gives (r : Registry) (name : String) : Outcome → Prop where
  | ordinary {v : Value} (h : v.Ordinary) : Gives r name ⟨v, none⟩
  | known {b : Builder} {body : Body Value} (hname : r.resolve? name = some b)
      (hbody : body.builder? = some b) : Gives r name ⟨.object name body, none⟩
  | unknown (hname : r.resolve? name = none) : Gives r name ⟨.object name .unresolved, some name⟩

theorem run_gives {r : Registry} {name : String} {args : List Value} {o : Outcome}
    (h : run r name args = .ok o) : Gives r (target name args).1 o := by
  unfold run at h
  generalize target name args = t at h ⊢
  obtain ⟨name, args⟩ := t
  dsimp only at h ⊢
  split at h
  · obtain ⟨v, hv, h⟩ := Except.bind_ok h
    cases h
    obtain ⟨i, rfl⟩ := scalar_leaf hv
    exact .ordinary trivial
  split at h
  · obtain ⟨v, hv, h⟩ := Except.bind_ok h
    cases h
    exact .ordinary (Builtin.apply_ordinary hv)
  unfold build at h
  split at h
  · next b hb =>
    obtain ⟨body, hbody, h⟩ := Except.bind_ok h
    cases h
    exact .known hb (Builder.make_builder? hbody)
  · next hb =>
    cases h
    exact .unknown hb

/-- A call reports its name exactly if no rule resolves it; a call that fails was resolved. -/
theorem run_unresolved (r : Registry) (name : String) (args : List Value) :
    (match run r name args with
      | .ok o => o.unresolved
      | .error _ => none) = unknown? r name args := by
  unfold run unknown?
  generalize target name args = t
  obtain ⟨name, args⟩ := t
  dsimp only
  by_cases hscalar : name ∈ scalars
  · rw [if_pos hscalar, if_pos (.inl hscalar)]
    cases ArrayBody.scalar name args <;> rfl
  rw [if_neg hscalar]
  cases hbuiltin : builtin? name with
  | some b =>
    rw [if_pos (.inr (.inl rfl))]
    dsimp only
    cases b.apply name args <;> rfl
  | none =>
    dsimp only
    unfold build
    cases hname : r.resolve? name with
    | some b =>
      rw [if_pos (.inr (.inr rfl))]
      dsimp only
      cases b.make args <;> rfl
    | none =>
      rw [if_neg (by simp [hscalar])]

end Call

end PickledModel
