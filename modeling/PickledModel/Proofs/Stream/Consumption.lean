import PickledModel.Proofs.Bytes.Relocation
import PickledModel.Proofs.Stream.Invocation
import PickledModel.Proofs.Stream.Success

/-! What the instructions of a run take from the stream: at least a byte each, and
whatever was read or restored lies between the cursors. So a run that may carry out as many
instructions as there are bytes ends of itself. -/

set_option autoImplicit false

namespace PickledModel.Machine
open Process

variable {op : Opcode}

/-- An instruction takes a run of bytes. -/
theorem step_over {r : Registry} {i : Instruction} {m t : Machine}
    (h : (step r op i).start m = (.ok (), t)) : ∃ used, Cursor.Over used m.cursor t.cursor := by
  by_cases hi : i = .build
  · subst hi
    obtain ⟨state, m₁, hpop, hbuild⟩ := start_bind_ok h
    obtain ⟨s, stack, -, hresolve⟩ := popValue_ok hpop
    obtain ⟨-, allowance, -, -, rfl⟩ := resolve_ok hresolve
    obtain ⟨-, g, typeName, body, body', c, -, -, hrestore, rfl⟩ := buildTop_ok hbuild
    obtain ⟨used, hused, -⟩ := Body.restore_floats _ _ _ _ _ hrestore
    rw [cursor_mapTop]
    exact ⟨used, hused⟩
  · have hstill := @step_cursor r op i hi m
    rw [h] at hstill
    exact ⟨[], hstill ▸ .refl m.cursor⟩

theorem next_over {r : Registry} {m t : Machine} (h : (next r).start m = (.ok none, t)) :
    ∃ used, Cursor.Over used m.cursor t.cursor := by
  obtain ⟨op, i, c, hfetch, ⟨v, -, hnone, -⟩ | ⟨-, -, hstep⟩⟩ := next_ok h
  · cases hnone
  · obtain ⟨used, hused, -⟩ := Cursor.fetch?_over hfetch
    obtain ⟨more, hmore⟩ := step_over hstep
    exact ⟨used ++ more, hused.trans hmore⟩

theorem after?_over {r : Registry} {n : Nat} {m t : Machine} (h : m.after? r n = some t) :
    ∃ used, Cursor.Over used m.cursor t.cursor := by
  induction n generalizing m with
  | zero =>
    obtain rfl := Option.some.inj h
    exact ⟨[], .refl m.cursor⟩
  | succ n ih =>
    obtain ⟨m₁, hn, h⟩ := after?_succ_iff.mp h
    obtain ⟨used, hused⟩ := next_over hn
    obtain ⟨more, hmore⟩ := ih h
    exact ⟨used ++ more, hused.trans hmore⟩

theorem fetch?_size_lt {c d : Cursor} {op : Opcode} {i : Instruction}
    (h : c.fetch? = some (op, i, d)) : d.size < c.size := by
  obtain ⟨used, hused, hthere⟩ := Cursor.fetch?_over h
  cases used with
  | nil =>
    -- an instruction of no bytes could be read where there are none
    have hempty := hthere ⟨0, []⟩ ⟨0, []⟩ (.refl _)
    cases hempty
  | cons b used =>
    rw [Cursor.size, Cursor.size, hused.rest, List.cons_append, List.length_cons,
      List.length_append]
    omega

theorem next_size_lt {r : Registry} {m t : Machine} (h : (next r).start m = (.ok none, t)) :
    t.cursor.size < m.cursor.size := by
  obtain ⟨op, i, c, hfetch, ⟨v, -, hnone, -⟩ | ⟨-, -, hstep⟩⟩ := next_ok h
  · cases hnone
  · obtain ⟨used, hused⟩ := step_over hstep
    have hlt := fetch?_size_lt hfetch
    have hrest : c.rest = used ++ t.cursor.rest := hused.rest
    have hle := congrArg List.length hrest
    rw [List.length_append] at hle
    rw [Cursor.size] at hlt ⊢
    omega

/-- A run ends with the first error that it comes to. -/
theorem run_error_of_after? {r : Registry} {k size : Nat} {m t u : Machine} {e : LoadError}
    (h : m.after? r k = some t) (ht : (next r).start t = (.error e, u))
    (hleft : 0 < t.cursor.size) (hsize : m.cursor.size ≤ size) : run r size m = (.error e, u) := by
  induction k generalizing m size with
  | zero =>
    obtain rfl := Option.some.inj h
    obtain ⟨size, rfl⟩ := Nat.exists_eq_succ_of_ne_zero (by omega : size ≠ 0)
    rw [run, ht]
  | succ k ih =>
    obtain ⟨m₁, hn, h⟩ := after?_succ_iff.mp h
    have hlt := next_size_lt hn
    obtain ⟨size, rfl⟩ := Nat.exists_eq_succ_of_ne_zero (by omega : size ≠ 0)
    rw [run, hn]
    exact ih h (by omega)

/-- Each instruction that was carried out took a byte. -/
theorem after?_size_le {r : Registry} {n : Nat} {m t : Machine} (h : m.after? r n = some t) :
    t.cursor.size + n ≤ m.cursor.size := by
  induction n generalizing m with
  | zero =>
    obtain rfl := Option.some.inj h
    exact Nat.le_refl _
  | succ n ih =>
    obtain ⟨m₁, hn, h⟩ := after?_succ_iff.mp h
    have hfirst := next_size_lt hn
    have hrest := ih h
    omega

end PickledModel.Machine
