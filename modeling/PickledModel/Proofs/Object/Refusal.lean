import PickledModel.Proofs.Object.Resolution

/-! The errors of calls. Whatever a global is called with, the call gives a value or one of
two errors: an element type is unknown, or the arguments do not fit. -/

set_option autoImplicit false

namespace PickledModel.Call

inductive Refusal : LoadError → Prop
  | elementType (code : String) : Refusal (.unknownElementType code)
  | arguments (name : String) (fault : StateFault) : Refusal (.malformedState name fault)

def Refusable {α : Type} (o : Except LoadError α) : Prop := ∀ e, o = .error e → Refusal e

namespace Refusable

variable {α β : Type}

theorem ok (a : α) : Refusable (.ok a) := by
  rintro e ⟨⟩

theorem error {e : LoadError} (h : Refusal e) : Refusable (.error e : Except LoadError α) := by
  rintro _ ⟨⟩
  exact h

theorem bind {o : Except LoadError α} {f : α → Except LoadError β} (ho : Refusable o)
    (hf : ∀ a, Refusable (f a)) : Refusable (o >>= f) := by
  cases o with
  | ok a => exact hf a
  | error e => exact error (ho e rfl)

theorem map {o : Except LoadError α} (f : α → β) (ho : Refusable o) : Refusable (f <$> o) := by
  cases o with
  | ok a => exact ok (f a)
  | error e => exact error (ho e rfl)

theorem mapM {f : α → Except LoadError β} (hf : ∀ a, Refusable (f a)) (as : List α) :
    Refusable (as.mapM f) := by
  induction as with
  | nil => exact ok []
  | cons a as ih =>
    rw [List.mapM_cons]
    exact (hf a).bind fun b => ih.bind fun bs => ok (b :: bs)

end Refusable

theorem firstItems_refusable (name : String) (args : List Value) :
    Refusable (firstItems name args) := by
  fun_cases firstItems name args with
  | case3 => exact .error (.arguments _ _)
  | _ => exact .ok _

theorem Builtin.apply_refusable (name : String) (b : Builtin) (args : List Value) :
    Refusable (b.apply name args) := by
  have hentry : ∀ v, Refusable (entry name v) := by
    intro v
    unfold entry
    split
    · exact .ok _
    · exact .error (.arguments _ _)
  fun_cases Builtin.apply name b args with
  | case9 v items hitems => exact (Refusable.mapM hentry items).map _
  | case12 args | case13 args => exact (firstItems_refusable name args).map _
  | _ => first
    | exact .ok _
    | exact .error (.arguments _ _)

theorem scalar_refusable (name : String) (args : List Value) :
    Refusable (ArrayBody.scalar name args) := by
  have hdescriptor : Refusable (ArrayBody.expectDescriptor name args[0]?) := by
    unfold ArrayBody.expectDescriptor
    split
    · exact .ok _
    · exact .error (.arguments _ _)
  apply hdescriptor.bind
  intro d
  split
  · exact .error (.arguments _ _)
  · split
    · split
      · exact .ok _
      · exact .error (.arguments _ _)
    · exact .error (.elementType _)

theorem make_refusable (b : Builder) (args : List Value) : Refusable (b.make args) := by
  cases b with
  | descriptor =>
    have hcode : ∀ v, Refusable (Descriptor.code? v) := by
      intro v
      unfold Descriptor.code?
      split
      · exact .ok _
      · exact .ok _
      · exact .error (.elementType _)
    have hresolve : ∀ code, Refusable (Descriptor.resolve code) := by
      intro code
      unfold Descriptor.resolve
      split
      · exact .ok _
      · exact .error (.elementType _)
    apply Refusable.map
    exact (hcode _).bind fun code => (hresolve code).bind fun t => .ok _
  | _ => exact .ok _

/-- A call fails with a refusal only. -/
theorem run_refusable (r : Registry) (name : String) (args : List Value) :
    Refusable (run r name args) := by
  unfold run
  dsimp only
  split
  · exact (scalar_refusable _ _).bind fun v => .ok _
  · split
    · next b _ => exact (b.apply_refusable _ _).bind fun v => .ok _
    · unfold build
      split
      · next b _ => exact (make_refusable b _).bind fun body => .ok _
      · exact .ok _

end PickledModel.Call
