import PickledModel.Proofs.Stream.Anchoring

/-! References to the memo. A slot refers to an index only once a value has been
put there, and no index is ever taken out of the memo, so in every state that
loads go through each slot stands for something. An index that is not bound is
reported by an instruction that asks for it, and by no other part of a step. -/

set_option autoImplicit false

namespace PickledModel.Machine
open Process

variable {op : Opcode} {m : Machine}

structure Change where
  depth : Nat
  apply : Value → Process Machine Unit

def extended (op : Opcode) (a : Addition Value) (v : Value) : Process Machine Unit :=
  match v.extend? a with
  | some w => setTarget w
  | none => fail op (a.refusal v.kind)

def change? (op : Opcode) : Instruction → Option (Process Machine Change)
  | .append => some do
    let h ← popValue op
    return ⟨h.depth, extended op (.toList [h.value])⟩
  | .appends => some do
    let g ← popMarked op
    return ⟨g.depth, extended op (.toList g.values)⟩
  | .setItem => some do
    let value ← popValue op
    let key ← popValue op
    return ⟨max value.depth key.depth, extended op (.toDict [(key.value, value.value)])⟩
  | .setItems => some do
    let g ← popMarked op
    let entries ← pairs op g.values
    return ⟨g.depth, extended op (.toDict entries)⟩
  | .addItems => some do
    let g ← popMarked op
    return ⟨g.depth, extended op (.toSet g.values)⟩
  | .build => some do
    let state ← popValue op
    return ⟨state.depth, fun
      | .object typeName body => do
        let m ← get
        let (r, body, cursor) := (Body.restore typeName state.value).start (body, m.cursor)
        set { m with cursor }
        setTarget (.object typeName body)
        Process.ofExcept r
      | v => fail op (.wrongTarget v.kind)⟩
  | _ => none

theorem step_eq_change {i : Instruction} {p : Process Machine Change} (h : change? op i = some p)
    (r : Registry) : step r op i = p >>= fun c => target op c.depth >>= c.apply := by
  cases i with
  | append | appends | setItem | setItems | addItems | build =>
    obtain rfl := Option.some.inj h
    simp only [step, bind_assoc, pure_bind]
    rfl
  | _ => cases h

/-- Taking the new parts leaves no dangling reference, so there is something to change. -/
theorem change_sound {i : Instruction} {p : Process Machine Change} (h : change? op i = some p) :
    Sound p := by
  cases i with
  | append | build =>
    obtain rfl := Option.some.inj h
    exact (popValue_sound op).bind fun _ => Fails.pure _
  | appends | addItems =>
    obtain rfl := Option.some.inj h
    exact (popMarked_sound op).bind fun _ => Fails.pure _
  | setItem =>
    obtain rfl := Option.some.inj h
    exact (popValue_sound op).bind fun _ => (popValue_sound op).bind fun _ => Fails.pure _
  | setItems =>
    obtain rfl := Option.some.inj h
    exact (popMarked_sound op).bind fun g => ((stepwise_sound op).pairs g.values).bind fun _ => Fails.pure _
  | _ => cases h

/-- An instruction that asks for an index fails exactly if the index is not bound. -/
theorem start_pushMemo (op : Opcode) (k : Nat) (m : Machine) :
    (pushMemo op k).start m =
      if k ∈ m.memo then (.ok (), { m with stack := .memo k :: m.stack })
      else (.error (.malformed (.cause (.unbound k) op m.cursor.position)), m) := by
  rw [pushMemo, start_bind, start_get]
  by_cases h : k ∈ m.memo <;> simp [h, pushSlot]

theorem perform_sound (r : Registry) (op : Opcode) {i : Instruction} (h : ∀ k, i ≠ .get k) :
    Sound (perform r op i) := by
  by_cases hstop : i = .stop
  · subst hstop
    exact finish_sound.map _
  · intro m hm
    obtain ⟨hanchored, hother⟩ := step_sound r op h m hm
    rw [start_perform_of_ne_stop r op hstop]
    refine ⟨hanchored, fun e he => ?_⟩
    cases hr : ((step r op i).start m).1 with
    | error e' =>
      rw [hr] at he
      cases he
      exact hother e hr
    | ok _ =>
      rw [hr] at he
      cases he

/-- What cannot be read as an instruction has nothing to do with the memo. -/
theorem next_other_of_fetch?_eq_none {r : Registry} (h : m.cursor.fetch? = none) {e : LoadError}
    (he : ((next r).start m).1 = .error e) : e.Other := by
  have hcursor : ∀ {α : Type} {p : Process Cursor α}, Fails (fun _ => True) LoadError.Other p →
      Fails (fun _ : Machine => True) LoadError.Other (onCursor p) :=
    fun hp => hp.on (fun _ _ => trivial) fun _ _ _ _ => trivial
  have hcode := (hcursor (Fetch.other_composed.read (r := Cursor.u8) trivial) m trivial).2
  rw [next, start_bind, start_get] at he
  dsimp only at he
  rw [start_bind] at he
  rcases hstart : (onCursor (read Cursor.u8)).start m with ⟨e' | code, t⟩ <;>
    rw [hstart] at he hcode
  · cases he
    exact hcode e rfl
  cases hop : Opcode.ofByte? code with
  | none =>
    simp only [hop] at he
    cases he
    rfl
  | some op =>
    simp only [hop] at he
    have hfetch := (hcursor (Fetch.other_composed.instruction m.cursor.position op) t trivial).2
    rw [start_bind] at he
    rcases hi : (onCursor (Fetch.instruction m.cursor.position op)).start t with ⟨e' | i, t'⟩ <;>
      rw [hi] at he hfetch
    · cases he
      exact hfetch e rfl
    -- both reads succeeded, so an instruction was fetched
    · obtain ⟨c, hread, rfl⟩ := start_on_ok hstart
      obtain ⟨c', hread', rfl⟩ := start_on_ok hi
      simp only [Cursor.fetch?, result?_eq_some_iff.mpr hread, hop,
        result?_eq_some_iff.mpr hread', Option.bind_eq_bind, Option.bind_some,
        Option.pure_def] at h
      cases h

/-- A step that does not ask for an index reports none. -/
theorem next_safe {r : Registry} (hm : m.Anchored)
    (h : ∀ op k c, m.cursor.fetch? ≠ some (op, .get k, c)) : Safe ((next r).start m) := by
  cases hfetch : m.cursor.fetch? with
  | none =>
    obtain ⟨e, c, hstart⟩ := start_next_of_fetch?_eq_none (r := r) hfetch
    refine ⟨?_, fun e => next_other_of_fetch?_eq_none hfetch⟩
    rw [hstart]
    exact ⟨hm.stack, hm.suspended⟩
  | some f =>
    obtain ⟨op, i, c⟩ := f
    rw [start_next_of_fetch? hfetch]
    apply perform_sound r op
    · rintro k rfl
      exact h op k c hfetch
    · exact ⟨hm.stack, hm.suspended⟩

theorem start_next_of_get {r : Registry} {k : Nat} {c : Cursor}
    (h : m.cursor.fetch? = some (op, .get k, c)) :
    (next r).start m =
      if k ∈ m.memo then (.ok none, { m with cursor := c, stack := .memo k :: m.stack })
      else (.error (.malformed (.cause (.unbound k) op c.position)), { m with cursor := c }) := by
  rw [start_next_of_fetch? h, start_perform_of_ne_stop r op (by simp), step, start_pushMemo]
  by_cases hk : k ∈ m.memo
  · simp only [hk, if_true]
    rfl
  · simp only [hk, if_false]
    rfl

theorem next_anchored {r : Registry} (hm : m.Anchored) : ((next r).start m).2.Anchored := by
  by_cases h : ∃ op k c, m.cursor.fetch? = some (op, .get k, c)
  · obtain ⟨op, k, c, hfetch⟩ := h
    have hcursor : Anchored { m with cursor := c } := ⟨hm.stack, hm.suspended⟩
    rw [start_next_of_get hfetch]
    by_cases hk : k ∈ m.memo
    · rw [if_pos hk]
      exact hcursor.push hk
    · rw [if_neg hk]
      exact hcursor
  · push Not at h
    exact (next_safe hm h).1

/-- Loads and the errors in their midst leave no dangling reference. -/
theorem Reachable.anchored {data : Bytes} (hm : Reachable data m) : m.Anchored := by
  induction hm with
  | ofBytes => exact ofBytes_anchored data
  | load _ ih => exact ⟨ih.stack, ih.suspended⟩
  | next r _ ih => exact next_anchored ih

/-- No reference dangles in any state that loads go through, nor where an instruction is
about to change the uppermost value. That an index is not bound is reported only by an
instruction that asks for it, and always then. -/
theorem references_bound {data : Bytes} (hm : Reachable data m) :
    m.Anchored ∧
      (∀ r op i p, change? op i = some p →
        (step r op i = p >>= fun c => target op c.depth >>= c.apply) ∧
          ∀ cursor c t, p.start { m with cursor } = (.ok c, t) → t.Anchored) ∧
      ∀ r k e, (((next r).start m).1 = .error e ∧ e.unbound? = some k) ↔
        ∃ op c, m.cursor.fetch? = some (op, .get k, c) ∧ m.memo[k]? = none ∧
          e = .malformed (.cause (.unbound k) op c.position) := by
  have hanchored := hm.anchored
  refine ⟨hanchored, fun r op i p h => ⟨step_eq_change h r, fun cursor c t ht => ?_⟩,
    fun r k e => ⟨?_, ?_⟩⟩
  · have hsound := change_sound h { m with cursor } ⟨hanchored.stack, hanchored.suspended⟩
    rw [ht] at hsound
    exact hsound.1
  · rintro ⟨he, hk⟩
    by_cases h : ∃ op j c, m.cursor.fetch? = some (op, .get j, c)
    · obtain ⟨op, j, c, hfetch⟩ := h
      rw [start_next_of_get hfetch] at he
      by_cases hj : j ∈ m.memo
      · rw [if_pos hj] at he
        cases he
      · rw [if_neg hj] at he
        cases he
        cases hk
        exact ⟨op, c, hfetch, Std.TreeMap.getElem?_eq_none hj, rfl⟩
    · push Not at h
      have hother := (next_safe hanchored h).2 e he
      rw [LoadError.Other, hk] at hother
      cases hother
  · rintro ⟨op, c, hfetch, hk, rfl⟩
    have hj : k ∉ m.memo := by
      rw [← Std.TreeMap.isSome_getElem?_iff_mem, hk]
      exact Bool.false_ne_true
    rw [start_next_of_get hfetch, if_neg hj]
    exact ⟨rfl, rfl⟩

namespace AfterOddEntries

/-- Puts a list into the memo and gives a dict one entry too few for a pair; behind that it
asks for an index that is not bound. -/
def stream : Bytes := [0x5d, 0x71, 0x00, 0x28, 0x68, 0x00, 0x75, 0x68, 0x01]

def stopped : Machine := ((ofBytes stream).load .empty).2

end AfterOddEntries

open AfterOddEntries in
theorem references_bound_afterOddEntries :
    stopped.stack = [.memo 0] ∧ stopped.Anchored ∧
      ((next .empty).start stopped).1 = .error (.malformed (.cause (.unbound 1) .binGet 9)) := by
  have hreachable : Reachable stream stopped := Reachable.ofBytes.loaded .empty
  obtain ⟨hanchored, -, hreports⟩ := references_bound hreachable
  have hstack : stopped.stack = [.memo 0] := by cbv
  have hfetch : stopped.cursor.fetch? = some (.binGet, .get 1, ⟨9, []⟩) := by cbv
  have hmiss : stopped.memo[1]? = none := by cbv
  have herror := (hreports .empty 1 (.malformed (.cause (.unbound 1) .binGet 9))).mpr
    ⟨.binGet, ⟨9, []⟩, hfetch, hmiss, rfl⟩
  exact ⟨hstack, hanchored, herror.1⟩

end PickledModel.Machine
