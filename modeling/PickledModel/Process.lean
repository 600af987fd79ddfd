import PickledModel.Fault

/-!
# Processes

Computations on a state in which an error keeps the state that was reached: a
load may go on after an error, and an object keeps what a failed restoration
has already put into it. The lemmas say what each way to build a process does
to its result and its state.
-/

set_option autoImplicit false

namespace PickledModel

abbrev Process (σ α : Type) := ExceptT LoadError (StateM σ) α

namespace Process

variable {σ τ α β : Type}

def start (p : Process σ α) (s : σ) : Except LoadError α × σ := Id.run (p.run.run s)

def ofExcept : Except LoadError α → Process σ α
  | .ok a => pure a
  | .error e => throw e

/-- A read on a cursor; a failed one leaves the cursor in place. -/
def read (r : Read α) : Process Cursor α := fun c =>
  match r c with
  | .ok (a, c') => (.ok a, c')
  | .error s => (.error (.shortage s), c)

def on (get : σ → τ) (set : τ → σ → σ) (p : Process τ α) : Process σ α := fun s =>
  let (r, t) := p.start (get s)
  (r, set t s)

def onSecond (p : Process τ α) : Process (σ × τ) α := on Prod.snd (fun t s => (s.1, t)) p

@[simp] theorem start_pure (a : α) (s : σ) : (pure a : Process σ α).start s = (.ok a, s) := rfl

@[simp] theorem start_throw (e : LoadError) (s : σ) :
    (throw e : Process σ α).start s = (.error e, s) := rfl

/-- A process goes on from the state that the one before it left, or stops with its error. -/
theorem start_bind (p : Process σ α) (f : α → Process σ β) (s : σ) :
    (p >>= f).start s = match p.start s with
      | (.ok a, t) => (f a).start t
      | (.error e, t) => (.error e, t) := by
  change ExceptT.bind p f s = _
  simp only [ExceptT.bind, ExceptT.mk, start, ExceptT.run, StateT.run, Id.run, bind, StateT.bind]
  rcases p s with ⟨_ | a, t⟩ <;> rfl

@[simp] theorem start_map (f : α → β) (p : Process σ α) (s : σ) :
    (f <$> p).start s = ((p.start s).1.map f, (p.start s).2) := by
  rw [← bind_pure_comp, start_bind]
  rcases p.start s with ⟨_ | a, t⟩ <;> rfl

@[simp] theorem start_get (s : σ) : (get : Process σ σ).start s = (.ok s, s) := rfl

@[simp] theorem start_set (s t : σ) : (set t : Process σ PUnit).start s = (.ok ⟨⟩, t) := rfl

@[simp] theorem start_modify (f : σ → σ) (s : σ) :
    (modify f : Process σ PUnit).start s = (.ok ⟨⟩, f s) := rfl

@[simp] theorem start_ofExcept (r : Except LoadError α) (s : σ) :
    (ofExcept r).start s = (r, s) := by
  cases r <;> rfl

@[simp] theorem start_on (get : σ → τ) (set : τ → σ → σ) (p : Process τ α) (s : σ) :
    (on get set p).start s = ((p.start (get s)).1, set (p.start (get s)).2 s) := rfl

theorem start_read_ok {r : Read α} {c c' : Cursor} {a : α} (h : r c = .ok (a, c')) :
    (read r).start c = (.ok a, c') := by
  change read r c = _
  rw [read, h]

/-- A failed read leaves the cursor where it was. -/
theorem start_read_error {r : Read α} {c : Cursor} {s : Shortage} (h : r c = .error s) :
    (read r).start c = (.error (.shortage s), c) := by
  change read r c = _
  rw [read, h]

end Process

end PickledModel
