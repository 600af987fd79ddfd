import PickledModel.Proofs.Sharing.Stepping

/-! Copies against sharing. A run in which each memo index is bound once, to a
value that no other index has, and in which a value is not changed after it went
into another one, gives what the machine of shared references gives: the copies
taken are what the cells hold in the end. -/

set_option autoImplicit false

namespace PickledModel

open Process

/-- Whether in a run each memo index is bound once, to a value that no other index
is bound to, and no slot is doubled. -/
def Machine.runBindsApart (r : Registry) : Nat → Machine → Bool
  | 0, _ => true
  | bytes + 1, m =>
    match m.cursor.fetch? with
    | none => true
    | some (_, i, _) => m.bindsFresh i &&
      match (next r).start m with
      | (.ok none, m) => runBindsApart r bytes m
      | _ => true

def Machine.bindsApart (r : Registry) (m : Machine) : Bool :=
  runBindsApart r m.cursor.size { m with reports := [] }

/-- A run. -/
theorem Agrees.run {r : Registry} {bytes : Nat} {m m' : Machine} {s : HeapMachine} {v : Value}
    (ha : Agrees m s) (hb : m.Holds Held.Bounded) (hbinds : m.runBindsApart r bytes = true)
    (hwrites : s.runWritesApart r bytes = true) (hrun : Machine.run r bytes m = (.ok v, m')) :
    ∃ q s', s.run? r bytes = some (q, s') ∧ Agrees m' s' ∧ Unfolds s'.heap q v := by
  induction bytes generalizing m s with
  | zero => cases hrun
  | succ bytes ih =>
    rw [Machine.run] at hrun
    rcases hnext : (Machine.next r).start m with ⟨e | o, m₁⟩
    · simp only [hnext] at hrun
      cases hrun
    · obtain ⟨op, i, c, hfetch, hcases⟩ := Machine.next_ok hnext
      have hfetch' : s.cursor.fetch? = some (op, i, c) := by rw [ha.cursor, hfetch]
      have ha₁ := ha.withCursor c
      simp only [Machine.runBindsApart, hfetch, hnext, Bool.and_eq_true] at hbinds
      rcases hcases with ⟨w, rfl, rfl, hfinish⟩ | ⟨hstop, rfl, hstep⟩
      · simp only [hnext] at hrun
        cases hrun
        obtain ⟨q, s', hdone, ha', hu⟩ := ha₁.finish hfinish
        exact ⟨q, s', by simp only [HeapMachine.run?, hfetch', hdone, Option.bind_eq_bind,
          Option.bind_some], ha', hu⟩
      · simp only [hnext] at hrun
        have hb' : m₁.Holds Held.Bounded := by
          have hkept := (Machine.next_holds Machine.bounded_closed.upheld.kept hb
            (Machine.bounded_closed.upheld.admits r _)).1
          rwa [hnext] at hkept
        obtain ⟨s₁, hstep', ha'⟩ := ha₁.step ⟨hb.stack, hb.suspended, hb.memo⟩
          (Cursor.flat_of_fetch? hfetch) hbinds.1 _ _ hstep
        rw [HeapMachine.runWritesApart_step hfetch' hstop hstep', Bool.and_eq_true] at hwrites
        have hapart : i.writes = true → s₁.topApart = true := by
          intro hw
          have hor := hwrites.1
          rwa [hw, Bool.not_true, Bool.false_or] at hor
        rw [HeapMachine.run?_step hfetch' hstop hstep']
        exact ih (ha' hapart) hb' hbinds.2 hwrites.2 hrun

/-- The two machines over a byte run, after the same loads. -/
inductive Abreast (data : Bytes) : Machine → HeapMachine → Prop
  | ofBytes : Abreast data (.ofBytes data) (.ofBytes data)
  | load {r : Registry} {m m' : Machine} {s s' : HeapMachine} {v : Value} {q : Ref} :
      Abreast data m s → m.bindsApart r = true → s.writesApart r = true →
      m.load r = (.ok v, m') → s.load? r = some (q, s') → Abreast data m' s'

namespace Abreast

variable {data : Bytes} {r : Registry} {m m' : Machine} {s : HeapMachine} {v : Value}

theorem reachable (h : Abreast data m s) : Machine.Reachable data m := by
  induction h with
  | ofBytes => exact .ofBytes
  | @load r m m' _ _ _ _ _ _ _ hload _ ih =>
    have hloaded := ih.loaded r
    rwa [hload] at hloaded

theorem load_agrees (h : Abreast data m s) (ha : Agrees m s) (hbinds : m.bindsApart r = true)
    (hwrites : s.writesApart r = true) (hload : m.load r = (.ok v, m')) :
    ∃ q s', s.load? r = some (q, s') ∧ Agrees m' s' ∧ Unfolds s'.heap q v := by
  have hsize : s.cursor.size = m.cursor.size := by rw [ha.cursor]
  rw [HeapMachine.writesApart, hsize] at hwrites
  rw [HeapMachine.load?, hsize]
  exact (ha.withReports []).run h.reachable.load.bounded hbinds hwrites hload

theorem agrees (h : Abreast data m s) : Agrees m s := by
  induction h with
  | ofBytes => exact Agrees.ofBytes data
  | load h hbinds hwrites hload hshared ih =>
    obtain ⟨q, s', hfound, ha', -⟩ := h.load_agrees ih hbinds hwrites hload
    rw [hshared] at hfound
    cases hfound
    exact ha'

/-- What a load gives is what its result unfolds to in the machine of shared
references, with the same diagnostics, provided that the load binds each memo
index once and each value to one index, doubles no slot, and changes no value
that went into another one. -/
theorem load_unfolds (h : Abreast data m s) (hbinds : m.bindsApart r = true)
    (hwrites : s.writesApart r = true) (hload : m.load r = (.ok v, m')) :
    ∃ q s', s.load? r = some (q, s') ∧ (∀ u, Unfolds s'.heap q u ↔ u = v) ∧
      s'.diagnostics = m'.diagnostics := by
  obtain ⟨q, s', hshared, ha', hu⟩ := h.load_agrees h.agrees hbinds hwrites hload
  refine ⟨q, s', hshared, ?_, ?_⟩
  · intro u
    constructor
    · intro hu'
      exact hu'.unique hu
    · rintro rfl
      exact hu
  · rw [HeapMachine.diagnostics, Machine.diagnostics, ha'.reports]

/-- A list is bound, a second reference to it is pushed, and an item is appended
through that one. Both items of the tuple show the item. -/
theorem load_unfolds_appended :
    (Machine.ofBytes [0x5d, 0x71, 0x00, 0x68, 0x00, 0x4b, 0x01, 0x61, 0x86, 0x2e]).bindsApart
        .empty = true ∧
      (HeapMachine.ofBytes [0x5d, 0x71, 0x00, 0x68, 0x00, 0x4b, 0x01, 0x61, 0x86, 0x2e]).writesApart
        .empty = true ∧
      ((Machine.ofBytes [0x5d, 0x71, 0x00, 0x68, 0x00, 0x4b, 0x01, 0x61, 0x86, 0x2e]).load .empty).1 =
        .ok (.tuple [.list [.int 1], .list [.int 1]]) ∧
      ∃ q s', (HeapMachine.ofBytes
          [0x5d, 0x71, 0x00, 0x68, 0x00, 0x4b, 0x01, 0x61, 0x86, 0x2e]).load? .empty = some (q, s') ∧
        ∀ u, Unfolds s'.heap q u ↔ u = .tuple [.list [.int 1], .list [.int 1]] := by
  have hbinds : (Machine.ofBytes
      [0x5d, 0x71, 0x00, 0x68, 0x00, 0x4b, 0x01, 0x61, 0x86, 0x2e]).bindsApart .empty = true := by
    cbv
  have hwrites : (HeapMachine.ofBytes
      [0x5d, 0x71, 0x00, 0x68, 0x00, 0x4b, 0x01, 0x61, 0x86, 0x2e]).writesApart .empty = true := by
    cbv
  have hvalue : ((Machine.ofBytes
      [0x5d, 0x71, 0x00, 0x68, 0x00, 0x4b, 0x01, 0x61, 0x86, 0x2e]).load .empty).1 =
        .ok (.tuple [.list [.int 1], .list [.int 1]]) := by cbv
  have hload : (Machine.ofBytes
      [0x5d, 0x71, 0x00, 0x68, 0x00, 0x4b, 0x01, 0x61, 0x86, 0x2e]).load .empty =
        (.ok (.tuple [.list [.int 1], .list [.int 1]]), ((Machine.ofBytes
          [0x5d, 0x71, 0x00, 0x68, 0x00, 0x4b, 0x01, 0x61, 0x86, 0x2e]).load .empty).2) := by
    rw [← hvalue]
  obtain ⟨q, s', hshared, hunfolds, -⟩ := load_unfolds .ofBytes hbinds hwrites hload
  exact ⟨hbinds, hwrites, hvalue, q, s', hshared, hunfolds⟩

end Abreast

end PickledModel
