import Mathlib.Algebra.Ring.Int.Defs
import Mathlib.Algebra.Ring.Nat
import PickledModel.Proofs.Process.Invariant

/-! How far processes add to the size of a state. What a process gives counts as
part of it, so what one takes out of a state and the next one puts back is paid
for once. A process may add more if it lets a clock of the state run down, and
once a clock has run down nothing more is said of the size. -/

set_option autoImplicit false

namespace PickledModel.Process

variable {σ τ α β : Type} {clock size : σ → Nat}

def worthOf (w : α → Nat) : Except LoadError α → Nat
  | .ok a => w a
  | .error _ => 0

/-- An outcome from a state is at most `k` larger, unless the clock has run down. -/
structure GrowsFrom (clock size : σ → Nat) (s : σ) (o : Except LoadError α × σ) (k : Nat)
    (w : α → Nat) : Prop where
  clock_le : clock o.2 ≤ clock s
  size_le : clock o.2 = clock s → size o.2 + worthOf w o.1 ≤ size s + k

def Grows (clock size : σ → Nat) (p : Process σ α) (k : Nat) (w : α → Nat) : Prop :=
  ∀ s, GrowsFrom clock size s (p.start s) k w

namespace GrowsFrom

variable {s t : σ} {o : Except LoadError α × σ} {k k' : Nat} {w w' : α → Nat}

/-- What was added before an outcome is added to what it adds. -/
theorem after (h : GrowsFrom clock size t o k w) (hclock : clock t ≤ clock s)
    (hsize : clock t = clock s → size t + k ≤ size s + k') : GrowsFrom clock size s o k' w := by
  obtain ⟨hc, hs⟩ := h
  constructor
  · omega
  · intro heq
    have := hs (by omega)
    have := hsize (by omega)
    omega

theorem mono (h : GrowsFrom clock size s o k w) (hk : k ≤ k') (hw : ∀ a, w' a ≤ w a) :
    GrowsFrom clock size s o k' w' := by
  constructor
  · exact h.clock_le
  · intro heq
    have hs := h.size_le heq
    have hworth : worthOf w' o.1 ≤ worthOf w o.1 := by
      rcases o.1 with e | a
      · exact Nat.le_refl 0
      · exact hw a
    omega

end GrowsFrom

namespace Grows

variable {k k' : Nat} {w w' : α → Nat}

theorem mono {p : Process σ α} (h : Grows clock size p k w) (hk : k ≤ k')
    (hw : ∀ a, w' a ≤ w a) : Grows clock size p k' w' :=
  fun s => (h s).mono hk hw

theorem raise {p : Process σ α} (h : Grows clock size p k w) (hk : k ≤ k') :
    Grows clock size p k' w :=
  h.mono hk fun _ => Nat.le_refl _

/-- A process leaves alone what is kept aside, if it succeeds. -/
theorem frame {p : Process σ α} (h : Grows clock size p k w) (j : Nat) :
    Grows clock size p (k + j) fun a => w a + j := by
  intro s
  obtain ⟨hc, hs⟩ := h s
  constructor
  · exact hc
  · intro heq
    have hworth : worthOf (fun a => w a + j) (p.start s).1 ≤ worthOf w (p.start s).1 + j := by
      rcases (p.start s).1 with e | a
      · exact Nat.zero_le _
      · exact Nat.le_refl _
    have := hs heq
    omega

theorem within {p : Process σ α} (h : Grows clock size p k w) (j : Nat) (hk : k + j ≤ k') :
    Grows clock size p k' fun a => w a + j :=
  (h.frame j).raise hk

theorem aside {p : Process σ α} (h : Grows clock size p 0 w) (j : Nat) :
    Grows clock size p j fun a => w a + j :=
  h.within j (Nat.le_of_eq (Nat.zero_add j))

theorem spare {p : Process σ α} (h : Grows clock size p 0 fun _ => 0) (j : Nat) :
    Grows clock size p j fun _ => j := by
  have := h.aside j
  simpa only [Nat.zero_add] using this

/-- What is ensured of a result may be used in what goes on with it. -/
theorem bind_ensured {p : Process σ α} {q : α → Prop} {f : α → Process σ β} {w' : β → Nat}
    (hp : Grows clock size p k w) (hq : Keeps (fun _ => True) p q)
    (hf : ∀ a, q a → Grows clock size (f a) (w a) w') : Grows clock size (p >>= f) k w' := by
  intro s
  obtain ⟨-, hresult⟩ := hq s trivial
  have hp := hp s
  rw [start_bind]
  rcases hr : p.start s with ⟨e | a, t⟩
  · rw [hr] at hp
    exact ⟨hp.clock_le, hp.size_le⟩
  · rw [hr] at hp hresult
    exact (hf a (hresult a rfl) t).after hp.clock_le hp.size_le

theorem bind {p : Process σ α} {f : α → Process σ β} {w' : β → Nat}
    (hp : Grows clock size p k w) (hf : ∀ a, Grows clock size (f a) (w a) w') :
    Grows clock size (p >>= f) k w' :=
  hp.bind_ensured (Keeps.trivially p) fun a _ => hf a

theorem pure {a : α} (h : w a ≤ k) : Grows clock size (Pure.pure a) k w := by
  intro s
  constructor
  · exact Nat.le_refl _
  · intro _
    exact Nat.add_le_add_left h _

theorem throw (e : LoadError) (k : Nat) :
    Grows clock size (MonadExcept.throw e : Process σ α) k w :=
  fun _ => ⟨Nat.le_refl _, fun _ => Nat.le_add_right _ _⟩

theorem throw_bind (e : LoadError) (f : α → Process σ β) (k : Nat) (w : β → Nat) :
    Grows clock size (MonadExcept.throw e >>= f) k w := by
  intro s
  rw [start_bind, start_throw]
  exact ⟨Nat.le_refl _, fun _ => Nat.le_add_right _ _⟩

theorem map {p : Process σ α} {f : α → β} {w' : β → Nat} (hp : Grows clock size p k w)
    (hf : ∀ a, w' (f a) ≤ w a) : Grows clock size (f <$> p) k w' := by
  rw [← bind_pure_comp]
  exact hp.bind fun a => pure (hf a)

theorem ofExcept {r : Except LoadError α} (h : ∀ a, r = .ok a → w a ≤ k) :
    Grows clock size (ofExcept r) k w := by
  cases r with
  | ok a => exact pure (h a rfl)
  | error e => exact throw e k

theorem get {f : σ → Process σ α} (h : ∀ s, Grows clock size (f s) k w) :
    Grows clock size (MonadState.get >>= f) k w := by
  intro s
  rw [start_bind, start_get]
  exact h s s

theorem modify {f : σ → σ} {w : PUnit → Nat} (hclock : ∀ s, clock (f s) = clock s)
    (hsize : ∀ s, size (f s) + w ⟨⟩ ≤ size s + k) : Grows clock size (modify f) k w := by
  intro s
  rw [start_modify]
  exact ⟨Nat.le_of_eq (hclock s), fun _ => hsize s⟩

/-- A process on a part of the state adds to the state what it adds to the part. -/
theorem on {get : σ → τ} {set : τ → σ → σ} {part : τ → Nat} {p : Process τ α}
    (h : Grows (fun _ => 0) part p k w) (hclock : ∀ s t, clock (set t s) = clock s)
    (hsize : ∀ s t, size (set t s) + part (get s) = size s + part t) :
    Grows clock size (on get set p) k w := by
  intro s
  rw [start_on]
  have hpart := (h (get s)).size_le rfl
  have := hsize s (p.start (get s)).2
  constructor
  · exact Nat.le_of_eq (hclock s _)
  · intro _
    dsimp only
    omega

theorem mapM {f : α → Process σ β} {w : α → Nat} {w' : β → Nat} {xs : List α}
    (h : ∀ x ∈ xs, Grows clock size (f x) (w x) w') :
    Grows clock size (xs.mapM f) (xs.map w).sum fun ys => (ys.map w').sum := by
  induction xs with
  | nil =>
    rw [List.mapM_nil]
    exact pure (Nat.le_refl 0)
  | cons x xs ih =>
    obtain ⟨hx, hxs⟩ := List.forall_mem_cons.mp h
    rw [List.mapM_cons, List.map_cons, List.sum_cons]
    apply (hx.frame (xs.map w).sum).bind
    intro y
    apply ((ih hxs).within (w' y) (by omega)).bind
    intro ys
    apply pure
    rw [List.map_cons, List.sum_cons]
    omega

end Grows

end PickledModel.Process
