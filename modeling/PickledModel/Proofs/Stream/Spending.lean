import PickledModel.Proofs.Stream.Success
import PickledModel.Proofs.Value.Footprint

/-! What copies cost. Copies are made in turn, up to the first that costs more than is
left of the allowance; that one is refused, which ends the load. What a process spends
adds up over the processes it is made of, and most of them copy nothing. -/

set_option autoImplicit false

namespace PickledModel

def costs (vs : List Value) : Nat := (vs.map Value.cost).sum

/-- Of the copies sought, those made: all before the first that costs more than
is left. -/
def granted (allowance : Nat) : List Value → List Value
  | [] => []
  | v :: vs => if v.cost ≤ allowance then v :: granted (allowance - v.cost) vs else []

@[simp] theorem costs_nil : costs [] = 0 := rfl

@[simp] theorem costs_cons (v : Value) (vs : List Value) : costs (v :: vs) = v.cost + costs vs := rfl

theorem costs_append (vs ws : List Value) : costs (vs ++ ws) = costs vs + costs ws := by
  simp [costs]

theorem granted_append_of_eq {allowance : Nat} {vs : List Value} (h : granted allowance vs = vs)
    (ws : List Value) : granted allowance (vs ++ ws) = vs ++ granted (allowance - costs vs) ws := by
  induction vs generalizing allowance with
  | nil => rfl
  | cons v vs ih =>
    rw [granted] at h
    split at h
    · next hv =>
      rw [List.cons_append, granted, if_pos hv, ih (List.cons_injective h)]
      rw [costs_cons, List.cons_append, Nat.sub_sub]
    · cases h

theorem granted_append_of_ne {allowance : Nat} {vs : List Value} (h : granted allowance vs ≠ vs)
    (ws : List Value) : granted allowance (vs ++ ws) = granted allowance vs := by
  induction vs generalizing allowance with
  | nil => exact absurd rfl h
  | cons v vs ih =>
    rw [List.cons_append, granted, granted]
    split
    · next hv =>
      rw [granted, if_pos hv] at h
      rw [ih fun heq => h (by rw [heq])]
    · rfl

theorem mem_granted {allowance : Nat} {vs : List Value} {v : Value} (h : v ∈ granted allowance vs) :
    v ∈ vs ∧ v.cost ≤ allowance := by
  induction vs generalizing allowance with
  | nil => cases h
  | cons w vs ih =>
    rw [granted] at h
    split at h
    · next hw =>
      rcases List.mem_cons.mp h with rfl | h
      · exact ⟨List.mem_cons_self, hw⟩
      · obtain ⟨hv, hcost⟩ := ih h
        exact ⟨List.mem_cons_of_mem w hv, by omega⟩
    · cases h

/-- If not all copies are granted, the first of the others costs more than is left. -/
theorem granted_cases (allowance : Nat) (vs : List Value) :
    granted allowance vs = vs ∨ ∃ v rest, vs = granted allowance vs ++ v :: rest ∧
      allowance < costs (granted allowance vs) + v.cost := by
  induction vs generalizing allowance with
  | nil => exact .inl rfl
  | cons v vs ih =>
    rw [granted]
    by_cases hv : v.cost ≤ allowance
    · rw [if_pos hv]
      rcases ih (allowance - v.cost) with hall | ⟨w, rest, hsplit, hcost⟩
      · exact .inl (by rw [hall])
      · refine .inr ⟨w, rest, congrArg (v :: ·) hsplit, ?_⟩
        rw [costs_cons]
        omega
    · rw [if_neg hv]
      refine .inr ⟨v, vs, rfl, ?_⟩
      rw [costs_nil]
      omega

def Refused {α : Type} (limit : Nat) (r : Except LoadError α) : Prop :=
  ∃ op offset, r = .error (.malformed (.cause (.copyLimit limit) op offset))

namespace Machine
open Process

variable {α β : Type} {op : Opcode}

/-- Of the copies sought, an outcome from a machine made those that are granted:
exactly their costs are gone from the allowance, and if they are not all that
were sought, the outcome is a refusal. -/
structure Spends (m : Machine) (o : Except LoadError α × Machine) (vs : List Value) : Prop where
  limit : o.2.copyLimit = m.copyLimit
  allowance : o.2.allowance + costs (granted m.allowance vs) = m.allowance
  refused : granted m.allowance vs ≠ vs → Refused m.copyLimit o.1

namespace Spends

variable {m m' : Machine} {o : Except LoadError α × Machine} {o' : Except LoadError β × Machine}
  {vs ws : List Value}

theorem nothing (hlimit : o.2.copyLimit = m.copyLimit) (hallowance : o.2.allowance = m.allowance) :
    Spends m o [] :=
  ⟨hlimit, hallowance, fun hne => absurd rfl hne⟩

theorem of_account (h : Spends m' o vs) (hlimit : m'.copyLimit = m.copyLimit)
    (hallowance : m'.allowance = m.allowance) : Spends m o vs := by
  obtain ⟨hl, ha, hr⟩ := h
  rw [hallowance] at ha hr
  rw [hlimit] at hl hr
  exact ⟨hl, ha, hr⟩

theorem granted_of_ok {a : α} (h : Spends m (.ok a, m') vs) : granted m.allowance vs = vs := by
  apply Classical.byContradiction
  intro hne
  obtain ⟨op, offset, he⟩ := h.refused hne
  cases he

/-- The copies of what goes on from a success come after those made before. -/
theorem then_ok {a : α} (h : Spends m (.ok a, m') vs) (h' : Spends m' o' ws) :
    Spends m o' (vs ++ ws) := by
  have hall := h.granted_of_ok
  have hlimit : m'.copyLimit = m.copyLimit := h.limit
  have hallowance : m'.allowance + costs (granted m.allowance vs) = m.allowance := h.allowance
  rw [hall] at hallowance
  have hrest : granted m.allowance (vs ++ ws) = vs ++ granted m'.allowance ws := by
    rw [granted_append_of_eq hall]
    congr 2
    omega
  constructor
  · rw [h'.limit, hlimit]
  · have := h'.allowance
    rw [hrest, costs_append]
    omega
  · intro hne
    rw [← hlimit]
    apply h'.refused
    intro heq
    rw [hrest, heq] at hne
    exact hne rfl

theorem of_error {e : LoadError} (h : Spends m ((.error e : Except LoadError α), m') vs) :
    Spends m ((.error e : Except LoadError β), m') vs := by
  constructor
  · exact h.limit
  · exact h.allowance
  · intro hne
    obtain ⟨op, offset, he⟩ := h.refused hne
    cases he
    exact ⟨op, offset, rfl⟩

/-- After a refusal nothing more is copied, whatever else was sought. -/
theorem append_refused (h : Spends m o vs) (hne : granted m.allowance vs ≠ vs) (ws : List Value) :
    Spends m o (vs ++ ws) := by
  constructor
  · exact h.limit
  · rw [granted_append_of_ne hne]
    exact h.allowance
  · intro _
    exact h.refused hne

variable {p : Process Machine α} {f : α → Process Machine β}

theorem bind_ok {a : α} (hp : Spends m (p.start m) vs) (h : p.start m = (.ok a, m'))
    (hf : Spends m' ((f a).start m') ws) : Spends m ((p >>= f).start m) (vs ++ ws) := by
  rw [h] at hp
  rw [start_bind, h]
  exact hp.then_ok hf

theorem bind_error {e : LoadError} (hp : Spends m (p.start m) vs) (h : p.start m = (.error e, m')) :
    Spends m ((p >>= f).start m) vs := by
  rw [h] at hp
  rw [start_bind, h]
  exact hp.of_error

theorem bind_refused (hp : Spends m (p.start m) vs) (h : granted m.allowance vs ≠ vs)
    (ws : List Value) : Spends m ((p >>= f).start m) (vs ++ ws) := by
  obtain ⟨op, offset, he⟩ := hp.refused h
  exact (hp.bind_error (Prod.ext he rfl)).append_refused h ws

theorem bind_get {f : Machine → Process Machine β} (h : Spends m ((f m).start m) vs) :
    Spends m ((get >>= f).start m) vs := by
  rwa [start_bind, start_get]

end Spends

def Frugal (p : Process Machine α) : Prop := ∀ m, Spends m (p.start m) []

theorem Spends.bind_frugal {m : Machine} {p : Process Machine α} {f : α → Process Machine β}
    {vs : List Value} (hp : Spends m (p.start m) vs) (hf : ∀ a, Frugal (f a)) :
    Spends m ((p >>= f).start m) vs := by
  rcases h : p.start m with ⟨e | a, m'⟩
  · exact hp.bind_error h
  · have := hp.bind_ok h (hf a m')
    rwa [List.append_nil] at this

theorem Frugal.bind {p : Process Machine α} {f : α → Process Machine β} (hp : Frugal p)
    (hf : ∀ a, Frugal (f a)) : Frugal (p >>= f) :=
  fun m => (hp m).bind_frugal hf

section
variable {m : Machine} {op : Opcode}

theorem fail_frugal (c : Cause) : Frugal (fail op c : Process Machine α) :=
  fun _ => .nothing rfl rfl

theorem pure_frugal (a : α) : Frugal (pure a) := fun _ => .nothing rfl rfl

theorem ofExcept_frugal (r : Except LoadError α) : Frugal (Process.ofExcept r) := by
  intro m
  rw [start_ofExcept]
  exact .nothing rfl rfl

theorem pushSlot_frugal (s : Slot) : Frugal (pushSlot s) := fun _ => .nothing rfl rfl

theorem push_frugal (n : Nat) (v : Value) : Frugal (push op n v) := by
  apply Frugal.bind
  · intro m
    rw [start_checkDepth]
    exact .nothing rfl rfl
  · intro _
    exact pushSlot_frugal _

theorem pushMemo_frugal (k : Nat) : Frugal (pushMemo op k) := by
  intro m
  apply Spends.bind_get
  split
  · exact pushSlot_frugal _ m
  · exact fail_frugal _ m

theorem start_popSlot_nil (op : Opcode) (hs : m.stack = []) :
    (popSlot op).start m = (.error (.malformed (.cause .underflow op m.cursor.position)), m) := by
  rw [popSlot, start_bind]
  simp only [start_get, hs, start_fail]

theorem start_popMark_nil (op : Opcode) (hs : m.suspended = []) :
    (popMark op).start m = (.error (.malformed (.cause .noMark op m.cursor.position)), m) := by
  rw [popMark, start_bind]
  simp only [start_get, hs, start_fail]

theorem popSlot_frugal : Frugal (popSlot op) := by
  intro m
  cases hs : m.stack with
  | nil =>
    rw [start_popSlot_nil op hs]
    exact .nothing rfl rfl
  | cons s stack =>
    rw [start_popSlot op s stack m hs]
    exact .nothing rfl rfl

theorem popMark_frugal : Frugal (popMark op) := by
  intro m
  cases hs : m.suspended with
  | nil =>
    rw [start_popMark_nil op hs]
    exact .nothing rfl rfl
  | cons stack suspended =>
    rw [start_popMark op stack suspended m hs]
    exact .nothing rfl rfl

theorem topSlot_frugal : Frugal (topSlot op) := by
  intro m
  apply Spends.bind_get
  split
  · exact pure_frugal _ m
  · exact fail_frugal _ m

theorem mapTop_spends (f : Held → Held) (m : Machine) (r : Except LoadError α) :
    Spends m (r, m.mapTop f) [] := by
  obtain ⟨stack, memo, hmap⟩ := mapTop_eq f m
  rw [hmap]
  exact .nothing rfl rfl

theorem target_frugal (n : Nat) : Frugal (target op n) := by
  intro m
  by_cases h : n + 1 ≤ maxNesting
  · rcases start_target op m h with ⟨g, -, he⟩ | ⟨-, e, he⟩
    · rw [he]
      exact mapTop_spends _ m _
    · rw [he]
      exact mapTop_spends _ m _
  · rw [target, start_bind, start_deepenTop, if_pos (Nat.not_le.mp h)]
    exact .nothing rfl rfl

theorem setTarget_frugal (v : Value) : Frugal (setTarget v) := fun m => mapTop_spends _ m _

/-- What an instruction does with the values that it took copies nothing. -/
theorem effective_frugal (op : Opcode) : Effective op Frugal where
  pure := pure_frugal
  bind := Frugal.bind
  fail _ := fail_frugal _
  push := push_frugal
  target := target_frugal
  setTarget := setTarget_frugal

theorem call_frugal (r : Registry) (n : Nat) (callee : Value) (args : List Value) :
    Frugal (call r op n callee args) :=
  (effective_frugal op).call (fun _ _ => ofExcept_frugal _) (fun _ _ => .nothing rfl rfl) n callee args

theorem buildTop_frugal (state : Held) : Frugal (buildTop op state) := by
  apply (target_frugal _).bind
  intro v
  split
  · intro m
    simp only [start_bind, start_get, start_set, setTarget, start_modifyTop, start_ofExcept]
    exact (mapTop_spends _ _ _).of_account rfl rfl
  · exact fail_frugal _

end

end Machine

end PickledModel
