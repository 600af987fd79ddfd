import PickledModel.Proofs.Sharing.Simulation
import PickledModel.Proofs.Stream.Additions

/-! Changes of the uppermost value against writes of its cell. A write shows in every
value that the cell went into, the change only in the slot, so the machines agree
behind it if the cell went into no value. -/

set_option autoImplicit false

namespace PickledModel

namespace Layer

variable {n : Layer Ref} {f : Ref → Value}

theorem eq_list {items : List Value} (h : Value.list items = (n.map f).value.normalize) :
    ∃ rs, n = .sequence .list rs ∧ items = rs.map f := by
  cases n with
  | sequence kind rs =>
    cases kind with
    | list =>
      cases h
      exact ⟨rs, rfl, rfl⟩
    | _ => cases h
  | _ => cases h

theorem eq_set {items : List Value}
    (h : Value.set (Value.distinctItems items) = (n.map f).value.normalize) :
    ∃ rs, n = .sequence .set rs ∧ Value.distinctItems items = Value.distinctItems (rs.map f) := by
  cases n with
  | sequence kind rs =>
    cases kind with
    | set => exact ⟨rs, rfl, (Value.sequence.inj h).2⟩
    | _ => cases h
  | _ => cases h

theorem eq_dict {entries : List (Value × Value)}
    (h : Value.dict (Value.distinctEntries entries) = (n.map f).value.normalize) :
    ∃ es, n = .dict es ∧ Value.distinctEntries entries =
      Value.distinctEntries (es.map fun e => (f e.1, f e.2)) := by
  cases n with
  | sequence kind rs => cases kind <;> cases h
  | dict es => exact ⟨es, rfl, Value.dict.inj h⟩
  | _ => cases h

theorem eq_object {typeName : String} {body : Body Value}
    (h : Value.object typeName body = (n.map f).value.normalize) :
    ∃ b, n = .object typeName b ∧ body = b.map f := by
  cases n with
  | sequence kind rs => cases kind <;> cases h
  | object name b =>
    cases h
    exact ⟨b, rfl, rfl⟩
  | _ => cases h

/-- A layer whose value takes an addition takes it too. -/
theorem extend?_of_extends {v w : Value} {a : Addition Ref} (h : v.Extends (a.map f) w)
    (hv : v.normalize = (n.map f).value.normalize) :
    ∃ l, n.extend? a = some l ∧ l.nests ∧ w.normalize = (l.map f).value.normalize ∧
      l.children = n.children ++ a.children := by
  cases a with
  | toList items =>
    cases h with
    | list present =>
      obtain ⟨rs, rfl, rfl⟩ := eq_list hv
      rw [← List.map_append]
      exact ⟨.sequence .list (rs ++ items), rfl, rfl, rfl, rfl⟩
  | toSet items =>
    cases h with
    | set present =>
      obtain ⟨rs, rfl, hdistinct⟩ := eq_set hv
      have hmore := Value.distinctItems_append_congr hdistinct (items.map f)
      rw [← List.map_append] at hmore
      exact ⟨.sequence .set (rs ++ items), rfl, rfl, congrArg Value.set hmore, rfl⟩
  | toDict entries =>
    cases h with
    | dict present =>
      obtain ⟨es, rfl, hdistinct⟩ := eq_dict hv
      have hmore : Value.distinctEntries (present ++ entries.map fun e => (f e.1, f e.2)) =
          Value.distinctEntries ((es ++ entries).map fun e => (f e.1, f e.2)) := by
        rw [List.map_append, Value.distinctEntries_append, hdistinct, ← Value.distinctEntries_append]
      exact ⟨.dict (es ++ entries), rfl, rfl, congrArg Value.dict hmore, List.flatMap_append⟩

end Layer

open Process

theorem HeapMachine.topApart_iff {s : HeapMachine} {a : Nat}
    (h : s.stack.head? = some (.cell a)) : s.topApart = true ↔ a ∉ s.popped := by
  rw [topApart, h]
  simp

abbrev AgreesApart (m : Machine) (s : HeapMachine) : Prop := s.topApart = true → Agrees m s

namespace Agrees

variable {op : Opcode} {m m' : Machine} {s s₀ : HeapMachine}

/-- A change of the uppermost value, and the write of its cell. -/
theorem change (ha : Agrees m s) {n : Nat} {f : Layer Ref → Option (Layer Ref)}
    {g : Value → Process Machine Unit}
    (hg : ∀ v m₁ m', (g v).start m₁ = (.ok (), m') → v.nests ∧
      ∃ w, m' = m₁.mapTop (fun h => { h with value := w }) ∧
        ∀ l : Layer Ref, (∀ c ∈ l.children, c.In s.popped) →
          v.normalize = (l.map s.heap.tree).value.normalize →
          ∃ l', f l = some l' ∧ l'.nests ∧ Heap.Settled.Rebuilds s.heap s.popped l' w) :
    Simulates (Machine.target op n >>= g) m (s.write? f) fun _ => AgreesApart := by
  rintro ⟨⟩ m' he
  obtain ⟨v, m₁, htarget, hrest⟩ := start_bind_ok he
  obtain ⟨-, rfl, h, ht, rfl⟩ := Machine.target_ok htarget
  obtain ⟨hnests, w, rfl, hf⟩ := hg _ _ _ hrest
  obtain ⟨a, l, hr, hl, hvalue, hin⟩ := ha.topCell ht hnests
  obtain ⟨l', hl', hnests', hrebuilds⟩ := hf l hin hvalue
  refine ⟨{ s with heap := s.heap.set a l' }, ?_, ?_⟩
  · simp only [HeapMachine.write?, hr, hl, hl', Option.bind_eq_bind, Option.bind_some,
      Option.pure_def, Ref.address?]
  · intro hapart
    have hpopped := (HeapMachine.topApart_iff (s := { s with heap := s.heap.set a l' }) hr).mp hapart
    have htop : (m.deepened n).top? = some { h with depth := max h.depth (n + 1) } := by
      rw [Machine.top?_mapTop, ht]
      rfl
    exact (ha.deepened ht n).write htop hr (List.getElem?_eq_some_iff.mp hl).1 hpopped hnests'
      hrebuilds

theorem extend (ha : Agrees m s) {n : Nat} (a : Addition Ref) (hin : ∀ c ∈ a.children, c.In s.popped) :
    Simulates (Machine.extend op n (a.map s.heap.tree)) m (s.write? (·.extend? a))
      fun _ => AgreesApart := by
  apply ha.change
  intro v m₁ m' hset
  cases hv : v.extend? (a.map s.heap.tree) with
  | none =>
    simp only [hv] at hset
    cases hset
  | some w =>
    simp only [hv] at hset
    cases hset
    have hextends := Value.extend?_eq_some_iff.mp hv
    refine ⟨hextends.nests.1, w, rfl, fun l hl hvalue => ?_⟩
    obtain ⟨l', htaken, hnests, hw, hchildren⟩ := Layer.extend?_of_extends hextends hvalue
    refine ⟨l', htaken, hnests, hw, ?_⟩
    rw [hchildren]
    exact List.forall_mem_append.mpr ⟨hl, hin⟩

theorem build (ha : Agrees m s) {state : Held} {r : Ref} (htook : Took s₀ s [r] [state.value])
    (hnesting : state.value.nesting ≤ state.depth) :
    Simulates (Machine.buildTop op state) m (s.build? r) fun _ => AgreesApart := by
  rintro ⟨⟩ m' hb
  obtain ⟨hdepth, g, typeName, body, body', c, ht, hobject, hrestore, rfl⟩ := Machine.buildTop_ok hb
  have hnests : g.value.nests := by
    rw [hobject]
    rfl
  obtain ⟨a, l, htop, hl, hlayer, hin⟩ := ha.topCell ht hnests
  rw [hobject] at hlayer
  obtain ⟨b, rfl, rfl⟩ := Layer.eq_object hlayer
  rw [htook.value] at hnesting hrestore
  rw [← ha.cursor] at hrestore
  obtain ⟨b', hmade, rfl, hin'⟩ :=
    ha.settled.restore_tree htook.settled_one (by omega) hin hrestore
  refine ⟨{ s with heap := s.heap.set a (.object typeName b'), cursor := c }, ?_, ?_⟩
  · simp only [HeapMachine.build?, htop, hl, hmade, Option.bind_eq_bind, Option.bind_some,
      Option.pure_def, Ref.address?]
  · intro hapart
    have hpopped := (HeapMachine.topApart_iff
      (s := { s with heap := s.heap.set a (.object typeName b'), cursor := c }) htop).mp hapart
    have htop' : (m.deepened state.depth).top? =
        some { g with depth := max g.depth (state.depth + 1) } := by
      rw [Machine.top?_mapTop, ht]
      rfl
    have hlt := (List.getElem?_eq_some_iff.mp hl).1
    exact ((ha.deepened ht state.depth).withCursor c).write htop' htop hlt hpopped rfl ⟨rfl, hin'⟩

end Agrees

end PickledModel
