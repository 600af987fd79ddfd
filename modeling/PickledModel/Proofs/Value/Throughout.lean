import PickledModel.Proofs.Object.Contents

/-! Properties that a value has throughout: the value itself and every value
inside it, at any depth. A property of this kind is kept by the loader if
ordinary values have it, and objects keep it when they are restored. -/

set_option autoImplicit false

namespace PickledModel.Value

def Ordinary : Value → Prop
  | .object _ _ => False
  | .global name => name ≠ ""
  | _ => True

inductive Throughout (q : Value → Prop) : Value → Prop where
  | intro {v : Value} (here : q v) (inside : ∀ c ∈ v.children, Throughout q c) : Throughout q v

variable {q q' : Value → Prop} {v : Value}

theorem Throughout.here (h : v.Throughout q) : q v := by
  cases h with
  | intro here _ => exact here

theorem Throughout.inside (h : v.Throughout q) : ∀ c ∈ v.children, c.Throughout q := by
  cases h with
  | intro _ inside => exact inside

theorem Throughout.mono (hq : ∀ u, q u → q' u) (h : v.Throughout q) : v.Throughout q' := by
  induction h with
  | intro here _ ih => exact .intro (hq _ here) ih

structure Stable (q : Value → Prop) : Prop where
  ordinary : ∀ v : Value, v.Ordinary → q v
  restore : ∀ (typeName : String) (body : Body Value) (state : Value) (c : Cursor),
    q (.object typeName body) →
      q (.object typeName ((Body.restore typeName state).start (body, c)).2.1)

namespace Stable

/-- A property that every value has but for the objects that are arrays. -/
theorem of_arrays (hother : ∀ v, (∀ typeName a, v ≠ .object typeName (.array a)) → q v)
    (harray : ∀ (typeName : String) (a : ArrayBody Value) (state : Value) (c : Cursor),
      q (.object typeName (.array a)) →
        q (.object typeName (.array ((ArrayBody.restore typeName state).start (a, c)).2.1))) :
    Stable q where
  ordinary v hv := by
    apply hother
    rintro typeName a rfl
    exact hv
  restore typeName body state c h := by
    cases body with
    | array a => exact harray typeName a state c h
    | descriptor d =>
      apply hother
      change ∀ name a, object typeName (Body.restore typeName state (.descriptor d, c)).2.1 ≠ _
      rw [Body.restore]
      cases d.restore state <;> simp
    | tree t =>
      apply hother
      change ∀ name a, object typeName (Body.restore typeName state (.tree t, c)).2.1 ≠ _
      rw [Body.restore]
      cases t.restore typeName state <;> simp
    | attributes entries => exact hother _ fun _ _ heq => by cases heq
    | unresolved => exact hother _ fun _ _ heq => by cases heq

theorem hereditary (hq : Stable q) : Hereditary (Throughout q) where
  none := .intro (hq.ordinary none trivial) (by simp [children])
  child _ hv := hv.inside

/-- Made distinct, a value has a property throughout if it had it before. -/
theorem normalize (hq : Stable q) (h : v.Throughout q) : v.normalize.Throughout q := by
  constructor
  · cases v with
    | dict entries => exact hq.ordinary _ trivial
    | sequence kind items => cases kind <;> exact hq.ordinary _ trivial
    | leaf l => exact h.here
    | object typeName body => exact h.here
  · intro c hc
    exact h.inside c (v.children_normalize_subset hc)

theorem restored (hq : Stable q) {typeName : String} {body : Body Value} {state : Value}
    (c : Cursor) (hbody : (object typeName body).Throughout q) (hstate : state.Throughout q) :
    (object typeName ((Body.restore typeName state).start (body, c)).2.1).Throughout q := by
  constructor
  · exact hq.restore typeName body state c hbody.here
  · exact (Body.restore_contents hq.hereditary typeName hstate (body, c) hbody.inside).1

end Stable

end PickledModel.Value
