import PickledModel.Process

/-! Invariants of processes. A process keeps an invariant if the state that it
leaves satisfies it, after an error too, and it ensures a property of the
results that it gives. Both are put together along the ways to build a process. -/

set_option autoImplicit false

namespace PickledModel.Process

variable {σ τ α β : Type} {i : σ → Prop}

def Keeps (i : σ → Prop) (p : Process σ α) (q : α → Prop) : Prop :=
  ∀ s, i s → i (p.start s).2 ∧ ∀ a, (p.start s).1 = .ok a → q a

namespace Keeps

theorem weaken {p : Process σ α} {q q' : α → Prop} (h : Keeps i p q) (hq : ∀ a, q a → q' a) :
    Keeps i p q' :=
  fun s hs => ⟨(h s hs).1, fun a ha => hq a ((h s hs).2 a ha)⟩

theorem pure {a : α} {q : α → Prop} (h : q a) : Keeps i (Pure.pure a) q := by
  intro s hs
  refine ⟨hs, ?_⟩
  rintro b ⟨⟩
  exact h

theorem throw {q : α → Prop} (e : LoadError) : Keeps i (MonadExcept.throw e : Process σ α) q := by
  intro s hs
  refine ⟨hs, ?_⟩
  rintro b ⟨⟩

theorem bind {p : Process σ α} {f : α → Process σ β} {q : α → Prop} {q' : β → Prop}
    (hp : Keeps i p q) (hf : ∀ a, q a → Keeps i (f a) q') : Keeps i (p >>= f) q' := by
  intro s hs
  rw [start_bind]
  obtain ⟨hi, hq⟩ := hp s hs
  rcases hr : p.start s with ⟨_ | a, t⟩
  · rw [hr] at hi
    refine ⟨hi, ?_⟩
    rintro b ⟨⟩
  · rw [hr] at hi hq
    exact hf a (hq a rfl) t hi

theorem map {p : Process σ α} {f : α → β} {q : β → Prop} (h : Keeps i p fun a => q (f a)) :
    Keeps i (f <$> p) q := by
  rw [← bind_pure_comp]
  exact h.bind fun a ha => pure ha

theorem get : Keeps i (MonadState.get : Process σ σ) i := by
  intro s hs
  refine ⟨hs, ?_⟩
  rintro t ⟨⟩
  exact hs

theorem set {s : σ} (h : i s) : Keeps i (MonadStateOf.set s : Process σ PUnit) fun _ => True :=
  fun _ _ => ⟨h, fun _ _ => trivial⟩

theorem modify {f : σ → σ} (h : ∀ s, i s → i (f s)) :
    Keeps i (modify f : Process σ PUnit) fun _ => True :=
  fun s hs => ⟨h s hs, fun _ _ => trivial⟩

theorem ofExcept (r : Except LoadError α) : Keeps i (ofExcept r) fun a => r = .ok a := by
  intro s hs
  rw [start_ofExcept]
  exact ⟨hs, fun a ha => ha⟩

/-- A process on a part of the state keeps what is untouched by changes of that part. -/
theorem on {get : σ → τ} {set : τ → σ → σ} {p : Process τ α} {j : τ → Prop} {q : α → Prop}
    (h : Keeps j p q) (hget : ∀ s, i s → j (get s)) (hset : ∀ s t, i s → j t → i (set t s)) :
    Keeps i (on get set p) q := by
  intro s hs
  rw [start_on]
  obtain ⟨ht, hq⟩ := h (get s) (hget s hs)
  exact ⟨hset s _ hs ht, hq⟩

theorem trivially (p : Process σ α) : Keeps (fun _ => True) p fun _ => True :=
  fun _ _ => ⟨trivial, fun _ _ => trivial⟩

theorem mapM {f : α → Process σ β} {q : β → Prop} {xs : List α}
    (h : ∀ x ∈ xs, Keeps i (f x) q) : Keeps i (xs.mapM f) fun ys => ∀ y ∈ ys, q y := by
  induction xs with
  | nil =>
    rw [List.mapM_nil]
    exact pure (by simp)
  | cons x xs ih =>
    obtain ⟨hx, hxs⟩ := List.forall_mem_cons.mp h
    rw [List.mapM_cons]
    refine hx.bind fun y hy => (ih hxs).bind fun ys hys => pure ?_
    exact List.forall_mem_cons.mpr ⟨hy, hys⟩

end Keeps

end PickledModel.Process
