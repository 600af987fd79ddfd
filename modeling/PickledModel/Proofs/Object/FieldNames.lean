import PickledModel.Proofs.Stream.Reachability

/-! No object has two fields of one name. Objects of the kinds with fields of their own
have distinct names for them, and the attributes of all others are set one by one, where a
name that is there already keeps its place. -/

set_option autoImplicit false

namespace PickledModel
open Process

theorem Descriptor.fields_nodup (d : Descriptor Value) : (d.fields.map Prod.fst).Nodup := by
  obtain ⟨elementType, align, copy, _ | s⟩ := d <;> simp [fields, stateFields]

theorem ArrayBody.fields_nodup (a : ArrayBody Value) : (a.fields.map Prod.fst).Nodup := by
  unfold fields
  cases a.layout <;> simp

theorem TreeBody.fields_nodup (t : TreeBody Value) : (t.fields.map Prod.fst).Nodup := by
  simp [fields]

def Body.DistinctNames : Body Value → Prop
  | .attributes entries => (entries.map Prod.fst).Nodup
  | _ => True

theorem Body.DistinctNames.fields_nodup {body : Body Value} (h : body.DistinctNames) :
    (body.fields.map Prod.fst).Nodup := by
  cases body with
  | descriptor d => exact d.fields_nodup
  | array a => exact a.fields_nodup
  | tree t => exact t.fields_nodup
  | attributes entries => exact h
  | unresolved => exact .nil

theorem mergeState_nodup (typeName : String) (state : Value) :
    Keeps (fun ms : List (String × Value) => (ms.map Prod.fst).Nodup)
      (mergeState typeName state) fun _ => True :=
  mergeState_keeps (p := fun _ => True) ⟨trivial, fun _ _ _ _ => trivial⟩ typeName
    (fun v _ name _ hms => Members.set_nodup name v hms) trivial

theorem Body.restore_distinctNames (typeName : String) (state : Value) :
    Keeps (fun s : Body Value × Cursor => s.1.DistinctNames) (restore typeName state)
      fun _ => True := by
  rintro ⟨body, c⟩ h
  refine ⟨?_, fun _ _ => trivial⟩
  change (restore typeName state (body, c)).2.1.DistinctNames
  cases body with
  | descriptor d =>
    rw [restore]
    cases d.restore state <;> trivial
  | array a => trivial
  | tree t =>
    rw [restore]
    cases t.restore typeName state <;> trivial
  | attributes entries => exact (mergeState_nodup typeName state entries h).1
  | unresolved => trivial

theorem Builder.make_distinctNames {b : Builder} {args : List Value} {body : Body Value}
    (h : b.make args = .ok body) : body.DistinctNames := by
  cases b with
  | descriptor =>
    obtain ⟨d, -, rfl⟩ := Except.map_ok h
    trivial
  | attributes =>
    obtain rfl := Except.ok.inj h
    exact List.nodup_nil
  | _ =>
    obtain rfl := Except.ok.inj h
    trivial

namespace Value

def DistinctNames : Value → Prop
  | .object _ body => body.DistinctNames
  | _ => True

theorem distinctNames_stable : Stable DistinctNames where
  ordinary v hv := by
    cases v with
    | object typeName body => cases hv
    | _ => trivial
  restore typeName body state c h := (Body.restore_distinctNames typeName state (body, c) h).1

end Value

theorem Held.distinctNames_upheld : Upheld (Held.Throughout Value.DistinctNames) :=
  Value.distinctNames_stable.upheld (fun _ _ _ _ h => Builder.make_distinctNames h) fun _ => trivial

namespace Machine

/-- No object that a load gives has two fields of one name, at any depth. -/
theorem Reachable.load_distinctNames {data : Bytes} {m : Machine} (hm : Reachable data m)
    {r : Registry} {v : Value} (h : (m.load r).1 = .ok v) : v.Throughout Value.DistinctNames := by
  obtain ⟨g, hg, rfl⟩ := hm.load_upholds Held.distinctNames_upheld h
  exact Value.distinctNames_stable.normalize hg

end Machine

end PickledModel
