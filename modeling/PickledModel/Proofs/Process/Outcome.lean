import PickledModel.Process

/-! What a computation that succeeds went through: each one put together with
others succeeded in its turn, a process from the state that the one before it left. -/

set_option autoImplicit false

namespace PickledModel

theorem Except.map_ok {ε α β : Type} {f : α → β} {x : Except ε α} {b : β}
    (h : f <$> x = .ok b) : ∃ a, x = .ok a ∧ f a = b := by
  cases x with
  | error e => cases h
  | ok a => exact ⟨a, rfl, Except.ok.inj h⟩

theorem Except.bind_ok {ε α β : Type} {x : Except ε α} {f : α → Except ε β} {b : β}
    (h : x >>= f = .ok b) : ∃ a, x = .ok a ∧ f a = .ok b := by
  cases x with
  | error e => cases h
  | ok a => exact ⟨a, rfl, h⟩

namespace Process

variable {σ τ α β : Type}

def result? (p : Process σ α) (s : σ) : Option (α × σ) :=
  match p.start s with
  | (.ok a, t) => some (a, t)
  | (.error _, _) => none

theorem result?_eq_some_iff {p : Process σ α} {s t : σ} {a : α} :
    p.result? s = some (a, t) ↔ p.start s = (.ok a, t) := by
  unfold result?
  rcases p.start s with ⟨_ | b, u⟩ <;> simp

theorem result?_eq_none_iff {p : Process σ α} {s : σ} :
    p.result? s = none ↔ ∃ e t, p.start s = (.error e, t) := by
  unfold result?
  rcases p.start s with ⟨e | a, t⟩
  · simp
  · simp

theorem start_bind_ok {p : Process σ α} {f : α → Process σ β} {s t : σ} {b : β}
    (h : (p >>= f).start s = (.ok b, t)) :
    ∃ a u, p.start s = (.ok a, u) ∧ (f a).start u = (.ok b, t) := by
  rw [start_bind] at h
  rcases hp : p.start s with ⟨e | a, u⟩
  · rw [hp] at h
    cases h
  · rw [hp] at h
    exact ⟨a, u, rfl, h⟩

theorem start_map_ok {p : Process σ α} {f : α → β} {s t : σ} {b : β}
    (h : (f <$> p).start s = (.ok b, t)) : ∃ a, p.start s = (.ok a, t) ∧ f a = b := by
  rw [← bind_pure_comp] at h
  obtain ⟨a, u, hp, ⟨⟩⟩ := start_bind_ok h
  exact ⟨a, hp, rfl⟩

theorem start_ofExcept_ok {r : Except LoadError α} {s t : σ} {a : α}
    (h : (ofExcept r).start s = (.ok a, t)) : r = .ok a ∧ t = s := by
  rw [start_ofExcept] at h
  cases h
  exact ⟨rfl, rfl⟩

theorem start_on_ok {get : σ → τ} {set : τ → σ → σ} {p : Process τ α} {s t : σ} {a : α}
    (h : (on get set p).start s = (.ok a, t)) :
    ∃ u, p.start (get s) = (.ok a, u) ∧ t = set u s := by
  rw [start_on] at h
  obtain ⟨ha, ht⟩ := Prod.mk.inj h
  exact ⟨(p.start (get s)).2, Prod.ext ha rfl, ht.symm⟩

end Process

end PickledModel
