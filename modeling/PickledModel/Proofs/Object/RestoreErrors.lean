import PickledModel.Object.Registry
import PickledModel.Proofs.Process.Failing

/-! The errors of restoration. An object that is given a state takes it, or finds
that it does not fit; only an array that reads its payload from the stream may
find the stream too short. -/

set_option autoImplicit false

namespace PickledModel
open Process

inductive RestoreFault : LoadError → Prop
  | state (typeName : String) (fault : StateFault) : RestoreFault (.malformedState typeName fault)
  | items (n : Nat) : RestoreFault (.descriptorState n)
  | stream (s : Shortage) : RestoreFault (.shortage s)

theorem read_restoreFault {α : Type} (r : Read α) :
    Fails (fun _ => True) RestoreFault (read r) :=
  Fails.read (fun _ => trivial) .stream r

theorem Descriptor.restore_fault {d : Descriptor Value} {state : Value} {e : LoadError}
    (h : d.restore state = .error e) : RestoreFault e := by
  unfold restore at h
  split at h
  · cases h
    exact .state _ _
  · cases h
  · cases h
    exact .items _

theorem TreeBody.restore_fault {t : TreeBody Value} {typeName : String} {state : Value}
    {e : LoadError} (h : t.restore typeName state = .error e) : RestoreFault e := by
  unfold restore at h
  split at h
  · cases h
  · cases h
    exact .state _ _

namespace ArrayBody

theorem expectDescriptor_fault {typeName : String} {v : Option Value} {e : LoadError}
    (h : expectDescriptor typeName v = .error e) : RestoreFault e := by
  unfold expectDescriptor at h
  split at h
  · cases h
  · cases h
    exact .state _ _

theorem expectShape_fault {typeName : String} {v : Option Value} {e : LoadError}
    (h : expectShape typeName v = .error e) : RestoreFault e := by
  unfold expectShape at h
  split at h
  · split at h
    · cases h
    · cases h
      exact .state _ _
  · cases h
    exact .state _ _

theorem restoreWrapped_fails (typeName : String) (state : Value) :
    Fails (fun _ => True) RestoreFault (restoreWrapped typeName state) := by
  have hstream : ∀ {α : Type} {p : Process Cursor α}, Fails (fun _ => True) RestoreFault p →
      Fails (fun _ : ArrayBody Value × Cursor => True) RestoreFault p.onSecond :=
    fun h => h.on (fun _ _ => trivial) fun _ _ _ _ => trivial
  have hpadding : Fails (fun _ => True) RestoreFault skipPadding :=
    (read_restoreFault _).bind fun _ => read_restoreFault _
  unfold restoreWrapped
  by_cases hk : state.kind ≠ .dict
  · rw [if_pos hk]
    exact Fails.throw_bind (.state _ _) _
  rw [if_neg hk]
  apply (Fails.ofExcept fun _ => expectDescriptor_fault).bind
  intro d
  apply (Fails.ofExcept fun _ => expectShape_fault).bind
  intro shape
  apply (Fails.modify fun _ _ => trivial).bind
  intro _
  cases Shape.product? d.elementType.itemSize shape with
  | none => exact Fails.throw (.state _ _)
  | some size =>
    have hfill : Fails (fun _ => True) RestoreFault
        (do
          let data ← (read (Cursor.take size)).onSecond
          modify fun s : ArrayBody Value × Cursor =>
            ({ s.1 with data, descriptor := some d, shape }, s.2)) :=
      (hstream (read_restoreFault _)).bind fun _ => Fails.modify fun _ _ => trivial
    by_cases hpad : isPadded state = true
    · simp only [hpad, if_true]
      exact (hstream hpadding).bind fun _ => hfill
    · simp only [hpad]
      exact hfill

theorem restoreInlined_fails (typeName : String) (state : Value) :
    Fails (fun _ => True) RestoreFault (restoreInlined typeName state) := by
  unfold restoreInlined
  split
  · exact Fails.throw (.state _ _)
  · next version shape typeCode columnMajor raw _ =>
    apply (Fails.ofExcept fun _ => expectDescriptor_fault).bind
    intro d
    apply (Fails.ofExcept fun _ => expectShape_fault).bind
    intro shape
    apply (Fails.modify fun _ _ => trivial).bind
    intro _
    cases raw.bytes? with
    | none => exact Fails.throw (.state _ _)
    | some data => exact Fails.modify fun _ _ => trivial
  · exact Fails.throw (.state _ _)

theorem restore_fails (typeName : String) (state : Value) :
    Fails (fun _ => True) RestoreFault (restore typeName state) := by
  apply Fails.get_bind
  intro s _
  cases s.1.layout with
  | wrapped => exact restoreWrapped_fails typeName state
  | inlined =>
    exact (restoreInlined_fails typeName state).on (fun _ _ => trivial) fun _ _ _ _ => trivial

end ArrayBody

theorem setAttributes_fails (typeName : String) (entries : List (Value × Value)) :
    Fails (fun _ => True) RestoreFault (setAttributes typeName entries) := by
  induction entries with
  | nil => exact Fails.pure ()
  | cons entry entries ih =>
    obtain ⟨k, v⟩ := entry
    rw [setAttributes]
    cases k.string? with
    | none => exact Fails.throw_bind (.state _ _) _
    | some name => exact (Fails.modify fun _ _ => trivial).bind fun _ => ih

theorem mergeState_fails (typeName : String) (state : Value) :
    Fails (fun _ => True) RestoreFault (mergeState typeName state) := by
  induction state using mergeState.induct with
  | case1 => exact Fails.pure ()
  | case2 entries =>
    rw [mergeState]
    exact setAttributes_fails typeName entries
  | case3 state slots ih ih' =>
    rw [mergeState]
    exact ih.bind fun _ => ih'
  | case4 v h h' h'' =>
    rw [mergeState]
    · exact Fails.throw (.state _ _)
    · exact h
    · exact h'
    · exact h''

/-- An object refuses a state that does not fit, or the stream ends too early. -/
theorem Body.restore_fails (typeName : String) (state : Value) :
    Fails (fun _ => True) RestoreFault (Body.restore typeName state) := by
  intro s _
  refine ⟨trivial, fun e he => ?_⟩
  obtain ⟨body, c⟩ := s
  unfold start at he
  cases body with
  | descriptor d =>
    change (Body.restore typeName state (.descriptor d, c)).1 = .error e at he
    unfold restore at he
    dsimp only at he
    cases hd : d.restore state with
    | ok d' =>
      rw [hd] at he
      cases he
    | error e' =>
      rw [hd] at he
      cases he
      exact Descriptor.restore_fault hd
  | array a => exact (ArrayBody.restore_fails typeName state (a, c) trivial).2 e he
  | tree t =>
    change (Body.restore typeName state (.tree t, c)).1 = .error e at he
    unfold restore at he
    dsimp only at he
    cases ht : t.restore typeName state with
    | ok t' =>
      rw [ht] at he
      cases he
    | error e' =>
      rw [ht] at he
      cases he
      exact TreeBody.restore_fault ht
  | attributes entries => exact (mergeState_fails typeName state entries trivial).2 e he
  | unresolved => cases he

end PickledModel
