import Mathlib.Data.List.Forall2
import PickledModel.Proofs.Process.Invariant
import PickledModel.Proofs.Process.Outcome

/-! Two processes side by side. One follows the other if, from related states,
it succeeds whenever the other does, with a related result in a related state,
or else stops with one of a few errors. Nothing is said where the other fails. -/

set_option autoImplicit false

namespace PickledModel

theorem forall₂_mem_right {α β : Type} {q : α → β → Prop} {xs : List α} {ys : List β}
    (h : List.Forall₂ q xs ys) {y : β} (hy : y ∈ ys) : ∃ x ∈ xs, q x y := by
  induction h with
  | nil => cases hy
  | cons hxy _ ih =>
    rcases List.mem_cons.mp hy with rfl | hy
    · exact ⟨_, List.mem_cons_self, hxy⟩
    · obtain ⟨x, hx, hr⟩ := ih hy
      exact ⟨x, List.mem_cons_of_mem _ hx, hr⟩

namespace Process

variable {σ τ α β γ δ : Type} {i j l : σ → σ → Prop} {stops : LoadError → Prop}

def Meets (j : σ → σ → Prop) (stops : LoadError → Prop) (q : α → β → Prop) (a : α) (s : σ) :
    Except LoadError β × σ → Prop
  | (.ok b, t) => q a b ∧ j s t
  | (.error e, _) => stops e

/-- From states related by `i` the second process does what the first one does,
up to `q` for the results and `j` for the states, or stops. -/
def Follows (i j : σ → σ → Prop) (stops : LoadError → Prop) (p : Process σ α) (p' : Process σ β)
    (q : α → β → Prop) : Prop :=
  ∀ s s', i s s' → ∀ a t, p.start s = (.ok a, t) → Meets j stops q a t (p'.start s')

theorem Meets.weaken {j j' : σ → σ → Prop} {q q' : α → β → Prop} {a : α} {s : σ}
    {o : Except LoadError β × σ} (h : Meets j stops q a s o) (hq : ∀ b, q a b → q' a b)
    (hj : ∀ t, j s t → j' s t) : Meets j' stops q' a s o := by
  obtain ⟨_ | b, t⟩ := o
  · exact h
  · exact ⟨hq b h.1, hj t h.2⟩

namespace Follows

variable {p : Process σ α} {p' : Process σ β} {q : α → β → Prop}

theorem before {i' : σ → σ → Prop} (h : Follows i j stops p p' q) (hi : ∀ s s', i' s s' → i s s') :
    Follows i' j stops p p' q :=
  fun s s' hs => h s s' (hi s s' hs)

theorem weaken {j' : σ → σ → Prop} {q' : α → β → Prop} (h : Follows i j stops p p' q)
    (hq : ∀ a b, q a b → q' a b) (hj : ∀ s s', j s s' → j' s s') :
    Follows i j' stops p p' q' :=
  fun s s' hs a t ha => (h s s' hs a t ha).weaken (hq a) (hj t)

/-- What is known of the results of the first process is known of both. -/
theorem and_keeps {q₀ : α → Prop} (h : Follows i j stops p p' q)
    (hp : Keeps (fun _ => True) p q₀) : Follows i j stops p p' fun a b => q a b ∧ q₀ a := by
  intro s s' hs a t ha
  have hq₀ := (hp s trivial).2 a (congrArg Prod.fst ha)
  exact (h s s' hs a t ha).weaken (fun _ hq => ⟨hq, hq₀⟩) fun _ hj => hj

theorem bind {f : α → Process σ γ} {f' : β → Process σ δ} {q' : γ → δ → Prop}
    (hp : Follows i j stops p p' q) (hf : ∀ a b, q a b → Follows j l stops (f a) (f' b) q') :
    Follows i l stops (p >>= f) (p' >>= f') q' := by
  intro s s' hs c u hc
  obtain ⟨a, t, ha, hfa⟩ := start_bind_ok hc
  have hmeets := hp s s' hs a t ha
  rw [start_bind]
  rcases ho : p'.start s' with ⟨e | b, t'⟩ <;> rw [ho] at hmeets
  · exact hmeets
  · exact hf a b hmeets.1 t t' hmeets.2 c u hfa

theorem pure {a : α} {b : β} (h : q a b) : Follows i i stops (Pure.pure a) (Pure.pure b) q := by
  rintro s s' hs _ _ ⟨⟩
  exact ⟨h, hs⟩

/-- Next to a process that fails, anything may happen. -/
theorem throw (e : LoadError) (p' : Process σ β) :
    Follows i j stops (MonadExcept.throw e : Process σ α) p' q := by
  rintro s s' _ _ _ ⟨⟩

theorem throw_bind (e : LoadError) (f : γ → Process σ α) (p' : Process σ β) :
    Follows i j stops ((MonadExcept.throw e : Process σ γ) >>= f) p' q := by
  intro s s' _ a t h
  obtain ⟨c, u, hc, -⟩ := start_bind_ok h
  cases hc

/-- A process that always stops follows every other. -/
theorem stop (p : Process σ α) (h : ∀ s, ∃ e t, p'.start s = (.error e, t) ∧ stops e) :
    Follows i j stops p p' q := by
  intro s s' _ a t _
  obtain ⟨e, u, he, hstops⟩ := h s'
  rw [he]
  exact hstops

theorem map {f : α → γ} {f' : β → δ} {q' : γ → δ → Prop}
    (h : Follows i j stops p p' fun a b => q' (f a) (f' b)) :
    Follows i j stops (f <$> p) (f' <$> p') q' := by
  rw [← bind_pure_comp, ← bind_pure_comp]
  exact h.bind fun _ _ hab => pure hab

theorem get : Follows i i stops (MonadState.get : Process σ σ) MonadState.get i := by
  rintro s s' hs _ _ ⟨⟩
  exact ⟨hs, hs⟩

theorem set {s s' : σ} (h : j s s') :
    Follows i j stops (MonadStateOf.set s : Process σ PUnit) (MonadStateOf.set s' : Process σ PUnit)
      fun _ _ => True := by
  rintro _ _ _ _ _ ⟨⟩
  exact ⟨trivial, h⟩

theorem modify {f f' : σ → σ} (h : ∀ s s', i s s' → j (f s) (f' s')) :
    Follows i j stops (modify f : Process σ PUnit) (modify f' : Process σ PUnit)
      fun _ _ => True := by
  rintro s s' hs _ _ ⟨⟩
  exact ⟨trivial, h s s' hs⟩

theorem ofExcept {r : Except LoadError α} {r' : Except LoadError β}
    (h : ∀ a, r = .ok a → ∃ b, r' = .ok b ∧ q a b) :
    Follows i i stops (ofExcept r) (ofExcept r') q := by
  intro s s' hs a t ha
  obtain ⟨rfl, rfl⟩ := start_ofExcept_ok ha
  obtain ⟨b, rfl, hab⟩ := h a rfl
  exact ⟨hab, hs⟩

theorem on {get : σ → τ} {set : τ → σ → σ} {p : Process τ α} {p' : Process τ β}
    {i' j' : τ → τ → Prop} (h : Follows i' j' stops p p' q)
    (hget : ∀ s s', i s s' → i' (get s) (get s'))
    (hset : ∀ s s' t t', i s s' → j' t t' → j (set t s) (set t' s')) :
    Follows i j stops (on get set p) (on get set p') q := by
  intro s s' hs a t ha
  obtain ⟨u, hu, rfl⟩ := start_on_ok ha
  have hmeets := h _ _ (hget s s' hs) a u hu
  rw [start_on]
  rcases ho : p'.start (get s') with ⟨e | b, u'⟩ <;> rw [ho] at hmeets
  · exact hmeets
  · exact ⟨hmeets.1, hset s s' u u' hs hmeets.2⟩

theorem mapM {f : α → Process σ γ} {f' : β → Process σ δ} {q' : γ → δ → Prop} {xs : List α}
    {ys : List β} (hxs : List.Forall₂ q xs ys)
    (h : ∀ x y, q x y → Follows i i stops (f x) (f' y) q') :
    Follows i i stops (xs.mapM f) (ys.mapM f') (List.Forall₂ q') := by
  induction hxs with
  | nil => exact pure .nil
  | cons hxy _ ih =>
    rw [List.mapM_cons, List.mapM_cons]
    apply (h _ _ hxy).bind
    intro a b hab
    apply ih.bind
    intro as bs habs
    exact pure (.cons hab habs)

end Follows

end Process

end PickledModel
