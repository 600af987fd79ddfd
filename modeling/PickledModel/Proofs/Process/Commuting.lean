import PickledModel.Process

/-! Two processes that do the same along a map of their states: from the image of
a state the second one gives the result of the first one, a value or an error,
and leaves the image of its state. -/

set_option autoImplicit false

namespace PickledModel.Process

variable {σ τ υ α β : Type} {f : σ → τ}

def Commutes (f : σ → τ) (p : Process σ α) (q : Process τ α) : Prop :=
  ∀ s, q.start (f s) = ((p.start s).1, f (p.start s).2)

namespace Commutes

theorem pure (a : α) : Commutes f (Pure.pure a : Process σ α) (Pure.pure a) := fun _ => rfl

theorem ofExcept (r : Except LoadError α) : Commutes f (ofExcept r) (Process.ofExcept r) := by
  intro s
  rw [start_ofExcept, start_ofExcept]

theorem modify {g : σ → σ} {g' : τ → τ} (h : ∀ s, g' (f s) = f (g s)) :
    Commutes f (modify g : Process σ PUnit) (modify g') := by
  intro s
  rw [start_modify, start_modify, h]

theorem bind {p : Process σ α} {q : Process τ α} {g : α → Process σ β} {g' : α → Process τ β}
    (hp : Commutes f p q) (hg : ∀ a, Commutes f (g a) (g' a)) :
    Commutes f (p >>= g) (q >>= g') := by
  intro s
  rw [start_bind, start_bind, hp s]
  rcases p.start s with ⟨e | a, t⟩
  · rfl
  · exact hg a t

/-- A look at the state goes before processes that do the same from it. -/
theorem get_bind {g : σ → Process σ β} {g' : τ → Process τ β}
    (h : ∀ s, (g' (f s)).start (f s) = (((g s).start s).1, f ((g s).start s).2)) :
    Commutes f (MonadState.get >>= g) (MonadState.get >>= g') := by
  intro s
  rw [start_bind, start_bind]
  exact h s

theorem map {g : α → β} {p : Process σ α} {q : Process τ α} (h : Commutes f p q) :
    Commutes f (g <$> p) (g <$> q) := by
  rw [← bind_pure_comp, ← bind_pure_comp]
  exact h.bind fun _ => pure _

theorem mapM {γ : Type} {p : γ → Process σ α} {q : γ → Process τ α} (xs : List γ)
    (h : ∀ x, Commutes f (p x) (q x)) : Commutes f (xs.mapM p) (xs.mapM q) := by
  induction xs with
  | nil => exact pure []
  | cons x xs ih =>
    rw [List.mapM_cons, List.mapM_cons]
    exact (h x).bind fun _ => ih.bind fun _ => pure _

/-- A process on a part of the state that the map leaves alone. -/
theorem on {get : σ → υ} {set : υ → σ → σ} {get' : τ → υ} {set' : υ → τ → τ} (p : Process υ α)
    (hget : ∀ s, get' (f s) = get s) (hset : ∀ s u, set' u (f s) = f (set u s)) :
    Commutes f (on get set p) (on get' set' p) := by
  intro s
  rw [start_on, start_on, hget, hset]

end Commutes

end PickledModel.Process
