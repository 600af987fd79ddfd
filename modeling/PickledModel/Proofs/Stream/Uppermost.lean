import PickledModel.Proofs.Stream.Consumption

/-! What an instruction renews. It makes or changes the value that is uppermost behind it,
and everything else that the machine holds then it held before. So if every value that is
left uppermost passes a check, all that a run comes to hold does. -/

set_option autoImplicit false

namespace PickledModel.Machine
open Process

variable {α : Type} {q : Value → Prop} {op : Opcode} {r : Registry} {i : Instruction}
  {m m' : Machine}

theorem Holds.imp {p p' : Held → Prop} (h : ∀ g, p g → p' g) (hm : m.Holds p) : m.Holds p' := by
  have hslot : ∀ s : Slot, s.Holds p → s.Holds p' := by
    rintro (g | _) hs
    · exact h g hs
    · trivial
  exact ⟨fun s hs => hslot s (hm.stack s hs), fun g hg s hs => hslot s (hm.suspended g hg s hs),
    fun k g hk => h g (hm.memo k g hk)⟩

def HoldsBelow (q : Value → Prop) (m : Machine) : Prop :=
  m.Holds fun h => q h.value ∨ m.top?.map Held.value = some h.value

theorem HoldsBelow.holds (hm : m.HoldsBelow q) (ht : ∀ g, m.top? = some g → q g.value) :
    m.Holds fun h => q h.value := by
  refine hm.imp fun h hh => ?_
  rcases hh with hq | htop
  · exact hq
  · obtain ⟨g, hg, hvalue⟩ := Option.map_eq_some_iff.mp htop
    rw [← hvalue]
    exact ht g hg

def Renews (q : Value → Prop) (p : Process Machine Unit) : Prop :=
  ∀ m m', m.Holds (fun h => q h.value) → p.start m = (.ok (), m') → m'.HoldsBelow q

theorem Renews.of_keeps {p : Process Machine Unit}
    (h : Keeps (Holds fun h => q h.value) p fun _ => True) : Renews q p := by
  intro m m' hm hp
  have hkept := (h m hm).1
  rw [hp] at hkept
  exact hkept.imp fun _ => .inl

theorem renews_bind {p : Process Machine α} {f : α → Process Machine Unit} {w : α → Prop}
    (hp : Keeps (Holds fun h => q h.value) p w) (hf : ∀ a, Renews q (f a)) :
    Renews q (p >>= f) := by
  intro m m' hm h
  obtain ⟨a, m₁, hstart, hrest⟩ := start_bind_ok h
  have hkept := (hp m hm).1
  rw [hstart] at hkept
  exact hf a m₁ m' hkept hrest

theorem fail_renews (op : Opcode) (c : Cause) : Renews q (fail op c) := by
  rintro m m' - ⟨⟩

theorem push_renews (op : Opcode) (n : Nat) (v : Value) : Renews q (push op n v) := by
  intro m m' hm h
  obtain rfl := push_ok h
  have hbelow : m.Holds fun h => q h.value ∨ some v = some h.value := hm.imp fun _ => .inl
  exact ⟨List.forall_mem_cons.mpr ⟨.inr rfl, hbelow.stack⟩, hbelow.suspended, hbelow.memo⟩

theorem Holds.mapTop_below (hm : m.Holds fun h => q h.value) (f : Held → Held) :
    (m.mapTop f).HoldsBelow q := by
  have hbelow : m.Holds fun h => q h.value ∨ (m.mapTop f).top?.map Held.value = some h.value :=
    hm.imp fun _ => .inl
  apply hbelow.mapTop
  intro h ht
  right
  rw [top?_mapTop, ht]
  rfl

/-- A value is as it was if it is noted to nest deeper. -/
theorem Holds.deepened_values (hm : m.Holds fun h => q h.value) (n : Nat) :
    (m.deepened n).Holds fun h => q h.value := by
  apply hm.mapTop
  intro h ht
  have hq : q h.value := Holds.top (p := fun h => q h.value) (h := h) hm ht
  exact hq

theorem change_renews (op : Opcode) (n : Nat) {f : Value → Process Machine Unit}
    (hf : ∀ v m m', (f v).start m = (.ok (), m') →
      ∃ w, m' = m.mapTop fun h => { h with value := w }) : Renews q (target op n >>= f) := by
  intro m m' hm h
  obtain ⟨v, m₁, htarget, hrest⟩ := start_bind_ok h
  obtain ⟨-, rfl, -⟩ := target_ok htarget
  obtain ⟨w, rfl⟩ := hf v _ _ hrest
  exact (hm.deepened_values n).mapTop_below _

theorem extend_renews (op : Opcode) (n : Nat) (a : Addition Value) : Renews q (extend op n a) := by
  apply change_renews
  intro v m m' h
  split at h
  · next w _ =>
    cases h
    exact ⟨w, rfl⟩
  · cases h

theorem buildTop_renews (op : Opcode) (state : Held) : Renews q (buildTop op state) := by
  intro m m' hm h
  obtain ⟨-, g, typeName, body, body', c, -, -, -, rfl⟩ := buildTop_ok h
  have hdeepened := hm.deepened_values state.depth
  have hmoved : Holds (fun h => q h.value) { m.deepened state.depth with cursor := c } :=
    ⟨hdeepened.stack, hdeepened.suspended, hdeepened.memo⟩
  exact hmoved.mapTop_below _

theorem call_renews (r : Registry) (op : Opcode) (n : Nat) (callee : Value) (args : List Value) :
    Renews q (call r op n callee args) := by
  unfold call
  split
  · apply renews_bind (Keeps.ofExcept _)
    intro o
    have hreport : Keeps (Holds fun h => q h.value) (modify fun m : Machine =>
        { m with reports := m.reports ++ o.unresolved.toList }) fun _ => True :=
      Keeps.modify fun m hm => ⟨hm.stack, hm.suspended, hm.memo⟩
    exact renews_bind hreport fun _ => push_renews op n o.value
  · exact fail_renews op _

theorem make_renews (r : Registry) (h : i.makes = true) : Renews q (step r op i) := by
  cases i with
  | tuple size => exact renews_bind (popValues_taken op size) fun g => push_renews op _ _
  | gather kind => exact renews_bind (popMarked_taken op) fun g => push_renews op _ _
  | gatherDict =>
    apply renews_bind (popMarked_taken op)
    intro g
    exact renews_bind (pairs_keeps op fun _ _ => trivial) fun _ => push_renews op _ _
  | stackGlobal =>
    apply renews_bind (popValue_taken op)
    intro name
    apply renews_bind (popValue_taken op)
    intro module_
    split
    · exact push_renews op _ _
    · exact fail_renews op _
  | _ => cases h

theorem fill_renews (r : Registry) (h : i.fills = true) : Renews q (step r op i) := by
  cases i with
  | append => exact renews_bind (popValue_taken op) fun h => extend_renews op _ _
  | appends | addItems => exact renews_bind (popMarked_taken op) fun g => extend_renews op _ _
  | setItem =>
    apply renews_bind (popValue_taken op)
    intro value
    exact renews_bind (popValue_taken op) fun key => extend_renews op _ _
  | setItems =>
    apply renews_bind (popMarked_taken op)
    intro g
    exact renews_bind (pairs_keeps op fun _ _ => trivial) fun _ => extend_renews op _ _
  | _ => cases h

theorem step_renews (r : Registry) (op : Opcode) (hi : i.Bare) : Renews q (step r op i) := by
  cases hcall : invocation? op i with
  | some f =>
    rw [step_eq_call hcall]
    exact renews_bind (invocation_keeps hcall hi) fun c => call_renews r op c.depth c.callee c.args
  | none =>
    cases i with
    | nothing | stop | inspect | mark | pop | popMark | dup | get | put | memoize =>
      exact .of_keeps (move_keeps r rfl)
    | push v => exact push_renews op 0 v
    | tuple | gather | gatherDict | stackGlobal => exact make_renews r rfl
    | append | appends | setItem | setItems | addItems => exact fill_renews r rfl
    | build => exact renews_bind (popValue_taken op) fun state => buildTop_renews op state
    | call | callWithKeywords | callMarked | callNamed => cases hcall

theorem next_renews (hm : m.Holds fun h => q h.value) (h : (next r).start m = (.ok none, m')) :
    m'.HoldsBelow q := by
  obtain ⟨op, i, c, hfetch, ⟨v, -, hnone, -⟩ | ⟨-, -, hstep⟩⟩ := next_ok h
  · cases hnone
  · have hcursor : Holds (fun h => q h.value) { m with cursor := c } :=
      ⟨hm.stack, hm.suspended, hm.memo⟩
    exact step_renews r op (Cursor.bare_of_fetch? hfetch) _ _ hcursor hstep

def runChecked (check : Value → Bool) (r : Registry) : Nat → Machine → Bool
  | 0, _ => true
  | bytes + 1, m =>
    match (next r).start m with
    | (.ok none, m) => m.top?.all (check ·.value) && runChecked check r bytes m
    | _ => true

/-- Whether the values that the next load leaves uppermost pass a check. -/
def checked (check : Value → Bool) (r : Registry) (m : Machine) : Bool :=
  runChecked check r m.cursor.size { m with reports := [] }

/-- All that a run comes to hold passes the check then. -/
theorem after?_holds_of_checked {check : Value → Bool} {bytes n : Nat} {t : Machine}
    (hm : m.Holds fun h => check h.value = true) (hn : n ≤ bytes)
    (hcheck : runChecked check r bytes m = true) (h : m.after? r n = some t) :
    t.Holds fun h => check h.value = true := by
  induction n generalizing m bytes with
  | zero =>
    obtain rfl := Option.some.inj h
    exact hm
  | succ n ih =>
    obtain ⟨bytes, rfl⟩ := Nat.exists_eq_succ_of_ne_zero (Nat.ne_zero_of_lt hn)
    obtain ⟨m₁, hnext, h⟩ := after?_succ_iff.mp h
    rw [runChecked, hnext, Bool.and_eq_true] at hcheck
    have hbelow : m₁.HoldsBelow fun v => check v = true := next_renews hm hnext
    apply ih _ (Nat.le_of_succ_le_succ hn) hcheck.2 h
    apply hbelow.holds
    intro g hg
    have hall := hcheck.1
    rwa [hg] at hall

end PickledModel.Machine
