import PickledModel.Proofs.Process.Invariant

/-! The errors of processes. A process that keeps an invariant may fail with
errors of one kind only, from every state that satisfies it. -/

set_option autoImplicit false

namespace PickledModel.Process

variable {σ τ α β : Type} {i : σ → Prop} {x : LoadError → Prop}

def Fails (i : σ → Prop) (x : LoadError → Prop) (p : Process σ α) : Prop :=
  ∀ s, i s → i (p.start s).2 ∧ ∀ e, (p.start s).1 = .error e → x e

namespace Fails

theorem pure (a : α) : Fails i x (Pure.pure a) := by
  intro s hs
  refine ⟨hs, ?_⟩
  rintro e ⟨⟩

theorem throw {e : LoadError} (h : x e) : Fails i x (MonadExcept.throw e : Process σ α) := by
  intro s hs
  refine ⟨hs, ?_⟩
  rintro _ ⟨⟩
  exact h

theorem throw_bind {e : LoadError} (h : x e) (f : α → Process σ β) :
    Fails i x ((MonadExcept.throw e : Process σ α) >>= f) := by
  intro s hs
  rw [start_bind, start_throw]
  refine ⟨hs, ?_⟩
  rintro _ ⟨⟩
  exact h

theorem bind {p : Process σ α} {f : α → Process σ β} (hp : Fails i x p)
    (hf : ∀ a, Fails i x (f a)) : Fails i x (p >>= f) := by
  intro s hs
  obtain ⟨hi, hx⟩ := hp s hs
  rw [start_bind]
  rcases hr : p.start s with ⟨e | a, t⟩ <;> rw [hr] at hi hx
  · refine ⟨hi, ?_⟩
    rintro _ ⟨⟩
    exact hx e rfl
  · exact hf a t hi

theorem map {p : Process σ α} (f : α → β) (h : Fails i x p) : Fails i x (f <$> p) := by
  rw [← bind_pure_comp]
  exact h.bind fun _ => pure _

/-- What goes on with the state may use that the state satisfies the invariant. -/
theorem get_bind {f : σ → Process σ α} (h : ∀ s, i s → Fails i x (f s)) :
    Fails i x (MonadState.get >>= f) := by
  intro s hs
  rw [start_bind]
  exact h s hs s hs

theorem modify {f : σ → σ} (h : ∀ s, i s → i (f s)) :
    Fails i x (modify f : Process σ PUnit) := by
  intro s hs
  refine ⟨h s hs, ?_⟩
  rintro e ⟨⟩

theorem ofExcept {r : Except LoadError α} (h : ∀ e, r = .error e → x e) :
    Fails i x (ofExcept r) := by
  intro s hs
  rw [start_ofExcept]
  exact ⟨hs, h⟩

/-- A read fails for want of bytes only. -/
theorem read {i : Cursor → Prop} (hi : ∀ c, i c) (hx : ∀ s, x (.shortage s)) (r : Read α) :
    Fails i x (read r) := by
  intro c _
  refine ⟨hi _, ?_⟩
  cases h : r c with
  | ok o =>
    obtain ⟨a, c'⟩ := o
    rw [start_read_ok h]
    rintro e ⟨⟩
  | error s =>
    rw [start_read_error h]
    rintro e ⟨⟩
    exact hx s

/-- A process on a part of the state fails with the errors that it has there. -/
theorem on {get : σ → τ} {set : τ → σ → σ} {p : Process τ α} {j : τ → Prop} (h : Fails j x p)
    (hget : ∀ s, i s → j (get s)) (hset : ∀ s t, i s → j t → i (set t s)) :
    Fails i x (on get set p) := by
  intro s hs
  rw [start_on]
  obtain ⟨ht, hx⟩ := h (get s) (hget s hs)
  exact ⟨hset s _ hs ht, hx⟩

end Fails

end PickledModel.Process
