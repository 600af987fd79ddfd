import PickledModel.Proofs.Stream.Preservation

/-! The states that loads go through. A property that steps keep holds after any number
of instructions, at the end of a load and over a row of loads, and so does what it says
of a result. -/

set_option autoImplicit false

namespace PickledModel.Machine
open Process

variable {p : Held → Prop}

theorem finish_keeps : Keeps (Holds p) finish fun v => ∃ h, p h ∧ v = h.value.normalize := by
  apply Keeps.get.bind
  intro m hm
  have hstack := hm.stack
  have hempty : Holds p { m with stack := [] } := ⟨by simp, hm.suspended, hm.memo⟩
  cases m.suspended.isEmpty with
  | false => exact (fail_keeps (q := fun _ => False) _ _).bind fun _ h => h.elim
  | true =>
    simp only [Bool.not_true, Bool.false_eq_true, if_false]
    apply (Keeps.set hempty).bind
    intro _ _
    split
    · next s heq =>
      rw [heq, List.forall_mem_singleton] at hstack
      refine Keeps.map ((resolve_keeps _ hstack).weaken ?_)
      rintro _ ⟨h, hp, rfl⟩
      exact ⟨h, hp, rfl⟩
    · exact Keeps.throw _

/-- A step keeps a property that the results of the call it makes have. -/
theorem next_holds_of_called (hk : Kept p) {r : Registry} {m : Machine} (hm : m.Holds p)
    (hg : ∀ call ∈ m.calledNext, Grants p r call) :
    ((next r).start m).2.Holds p ∧
      ∀ v, ((next r).start m).1 = .ok (some v) → ∃ h, p h ∧ v = h.value.normalize := by
  unfold calledNext at hg
  cases hfetch : m.cursor.fetch? with
  | none =>
    obtain ⟨e, c, hstart⟩ := start_next_of_fetch?_eq_none (r := r) hfetch
    rw [hstart]
    exact ⟨⟨hm.stack, hm.suspended, hm.memo⟩, fun v h => by cases h⟩
  | some o =>
    obtain ⟨op, i, c⟩ := o
    rw [hfetch] at hg
    have hcursor : Holds p { m with cursor := c } := ⟨hm.stack, hm.suspended, hm.memo⟩
    rw [start_next_of_fetch? hfetch]
    by_cases hi : i = .stop
    · subst hi
      obtain ⟨hfinish, hresult⟩ := finish_keeps _ hcursor
      rw [perform, start_map]
      refine ⟨hfinish, fun v hv => hresult v ?_⟩
      rcases hr : (finish.start { m with cursor := c }).1 with e | w
      · rw [hr] at hv
        cases hv
      · rw [hr] at hv
        cases hv
        rfl
    · rw [start_perform_of_ne_stop r op hi]
      refine ⟨step_holds hk (Cursor.bare_of_fetch? hfetch) hcursor hg, fun v hv => ?_⟩
      rcases hr : ((step r op i).start { m with cursor := c }).1 with e | u
      · rw [hr] at hv
        cases hv
      · rw [hr] at hv
        cases hv

theorem next_holds (hk : Kept p) {r : Registry} {m : Machine} (hm : m.Holds p)
    (ha : Admits p r ((next r).start m).2.reports) :
    ((next r).start m).2.Holds p ∧
      ∀ v, ((next r).start m).1 = .ok (some v) → ∃ h, p h ∧ v = h.value.normalize := by
  have hreported : unknowns r m.calledNext.toList ⊆ ((next r).start m).2.reports := by
    rw [next_reports]
    exact List.subset_append_right _ _
  exact next_holds_of_called hk hm fun call hcall =>
    ha.grants hreported call (Option.mem_toList.mpr hcall)

/-- A run keeps a property that the results of the calls it makes have. -/
theorem run_holds_of_called (hk : Kept p) {r : Registry} {bytes : Nat} {m : Machine}
    (hm : m.Holds p) (hg : ∀ call ∈ calledBy r bytes m, Grants p r call) :
    (run r bytes m).2.Holds p ∧
      ∀ v, (run r bytes m).1 = .ok v → ∃ h, p h ∧ v = h.value.normalize := by
  induction bytes generalizing m with
  | zero => exact ⟨hm, fun v h => by cases h⟩
  | succ bytes ih =>
    rw [calledBy] at hg
    obtain ⟨hgnext, hgrest⟩ := List.forall_mem_append.mp hg
    have hnext := next_holds_of_called hk (r := r) hm fun call hcall =>
      hgnext call (Option.mem_toList.mpr hcall)
    rw [run]
    rcases hn : (next r).start m with ⟨_ | _ | v, m'⟩
    · rw [hn] at hnext
      exact ⟨hnext.1, fun v h => by cases h⟩
    · rw [hn] at hnext hgrest
      exact ih hnext.1 hgrest
    · rw [hn] at hnext
      refine ⟨hnext.1, ?_⟩
      rintro w ⟨⟩
      exact hnext.2 _ rfl

theorem run_holds (hk : Kept p) {r : Registry} {bytes : Nat} {m : Machine} (hm : m.Holds p)
    (ha : Admits p r (run r bytes m).2.reports) :
    (run r bytes m).2.Holds p ∧
      ∀ v, (run r bytes m).1 = .ok v → ∃ h, p h ∧ v = h.value.normalize := by
  refine run_holds_of_called hk hm (ha.grants ?_)
  rw [run_reports]
  exact List.subset_append_right _ _

theorem after?_holds (hk : Kept p) {r : Registry} (ha : ∀ reports, Admits p r reports) {j : Nat}
    {m mj : Machine} (hm : m.Holds p) (h : m.after? r j = some mj) : mj.Holds p := by
  induction j generalizing m with
  | zero =>
    obtain rfl := Option.some.inj h
    exact hm
  | succ j ih =>
    have hnext := (next_holds hk hm (ha ((next r).start m).2.reports)).1
    obtain ⟨m₁, hn, h⟩ := after?_succ_iff.mp h
    rw [hn] at hnext
    exact ih hnext h

/-- The states over a byte run between instructions: a load may begin at any
of them, whatever the loads before it gave, and an instruction may fail. -/
inductive Reachable (data : Bytes) : Machine → Prop
  | ofBytes : Reachable data (ofBytes data)
  | load {m : Machine} : Reachable data m → Reachable data { m with reports := [] }
  | next (r : Registry) {m : Machine} : Reachable data m → Reachable data ((next r).start m).2

theorem Reachable.upholds (hu : Upheld p) {data : Bytes} {m : Machine} (hm : Reachable data m) :
    m.Holds p := by
  induction hm with
  | ofBytes => exact ofBytes_holds p data
  | load _ ih => exact ⟨ih.stack, ih.suspended, ih.memo⟩
  | next r _ ih => exact (next_holds hu.kept ih (hu.admits r _)).1

/-- What a load gives was held with the property, and made distinct when it was taken out. -/
theorem Reachable.load_upholds (hu : Upheld p) {data : Bytes} {m : Machine}
    (hm : Reachable data m) {r : Registry} {v : Value} (h : (m.load r).1 = .ok v) :
    ∃ g, p g ∧ v = g.value.normalize :=
  (run_holds hu.kept (hm.load.upholds hu) (hu.admits r _)).2 v h

theorem Reachable.holds (hc : Closed p) {data : Bytes} {m : Machine} (hm : Reachable data m) :
    m.Holds p := hm.upholds hc.upheld

theorem Reachable.load_holds (hc : Closed p) {data : Bytes} {m : Machine} (hm : Reachable data m)
    {r : Registry} {v : Value} (h : (m.load r).1 = .ok v) : ∃ g, p g ∧ v = g.value.normalize :=
  hm.load_upholds hc.upheld h

theorem Reachable.run {data : Bytes} (r : Registry) (bytes : Nat) {m : Machine}
    (hm : Reachable data m) : Reachable data (run r bytes m).2 := by
  induction bytes generalizing m with
  | zero => exact hm
  | succ bytes ih =>
    have hnext := hm.next r
    rw [Machine.run]
    rcases hn : (Machine.next r).start m with ⟨_ | _ | v, m'⟩
    · rwa [hn] at hnext
    · rw [hn] at hnext
      exact ih hnext
    · rwa [hn] at hnext

theorem Reachable.loaded {data : Bytes} (r : Registry) {m : Machine} (hm : Reachable data m) :
    Reachable data (m.load r).2 :=
  Reachable.run r _ hm.load

end PickledModel.Machine
