import PickledModel.Proofs.Stream.Spending

/-! The copies that instructions seek and those that are made. Taking a value
out of a reference to the memo copies it, and so does doubling a slot of its own;
the copies are made in turn up to the first that costs more than is left of the
allowance, which ends the load. -/

set_option autoImplicit false

namespace PickledModel.Machine
open Process

variable {α β : Type} {m : Machine} {op : Opcode}

/-- What is copied when slots are emptied in turn: what the references among
them stand for, up to one that is not bound. -/
def memoized (memo : Memo) : List Slot → List Value
  | [] => []
  | .owned _ :: slots => memoized memo slots
  | .memo k :: slots =>
    match memo[k]? with
    | some h => h.value :: memoized memo slots
    | none => []

def displaced (m : Machine) (k : Nat) : List Slot :=
  match m.stack with
  | .memo source :: _ => if source = k then [] else [.memo source]
  | _ => []

def emptied (m : Machine) : Instruction → List Slot
  | .put k => m.displaced k
  | .memoize => if m.memo.size < 2 ^ 32 then m.displaced m.memo.size else []
  | .append | .build => m.stack.take 1
  | .setItem | .stackGlobal | .call => m.stack.take 2
  | .callWithKeywords => m.stack.take 3
  | .tuple n => if n ≤ m.stack.length then (m.stack.take n).reverse else []
  | .gather _ | .gatherDict | .appends | .setItems | .addItems | .callMarked | .callNamed _ =>
    if m.suspended.isEmpty then [] else m.stack.reverse
  | .stop => if m.suspended.isEmpty && m.stack.length == 1 then m.stack else []
  | _ => []

def seeks (m : Machine) : Instruction → List Value
  | .dup =>
    match m.stack with
    | .owned h :: _ => [h.value]
    | _ => []
  | i => memoized m.memo (m.emptied i)

theorem start_chargeCopy (op : Opcode) (v : Value) (m : Machine) :
    (chargeCopy op v).start m =
      if v.cost ≤ m.allowance then (.ok (), { m with allowance := m.allowance - v.cost })
      else (.error (.malformed (.cause (.copyLimit m.copyLimit) op m.cursor.position)), m) := by
  rw [chargeCopy, start_bind, start_get]
  dsimp only
  rw [Value.footprint?_eq]
  by_cases hv : v.cost ≤ m.allowance
  · simp only [if_pos hv]
    rfl
  · simp only [if_neg hv, start_fail]

theorem chargeCopy_spends (m : Machine) (v : Value) :
    Spends m ((chargeCopy op v).start m) [v] := by
  rw [start_chargeCopy]
  by_cases hv : v.cost ≤ m.allowance
  · have hall : granted m.allowance [v] = [v] := by rw [granted, if_pos hv, granted]
    rw [if_pos hv]
    refine ⟨rfl, ?_, fun hne => absurd hall hne⟩
    rw [hall]
    simp only [costs_cons, costs_nil]
    omega
  · have hnone : granted m.allowance [v] = [] := by rw [granted, if_neg hv]
    rw [if_neg hv]
    refine ⟨rfl, ?_, fun _ => ⟨op, _, rfl⟩⟩
    rw [hnone]
    rfl

theorem copyMemo_spends (op : Opcode) (m : Machine) (k : Nat) :
    Spends m ((copyMemo op k).start m) (memoized m.memo [.memo k]) := by
  apply Spends.bind_get
  rw [memoized]
  cases m.memo[k]? with
  | none => exact fail_frugal _ m
  | some h => exact (chargeCopy_spends m h.value).bind_frugal fun _ => pure_frugal _

theorem resolve_spends (op : Opcode) (m : Machine) (s : Slot) :
    Spends m ((resolve op s).start m) (memoized m.memo [s]) := by
  cases s with
  | owned h => exact pure_frugal _ m
  | memo k => exact (copyMemo_spends op m k).bind_frugal fun _ => pure_frugal _

/-- Slots are emptied in turn: the next only if the one before it could be. -/
theorem resolve_spends_bind (op : Opcode) (s : Slot) {slots : List Slot} {f : Held → Process Machine β}
    (hf : ∀ h allowance, Spends { m with allowance } ((f h).start { m with allowance })
      (memoized m.memo slots)) :
    Spends m ((resolve op s >>= f).start m) (memoized m.memo (s :: slots)) := by
  cases s with
  | owned h => exact hf { h with value := h.value.normalize } m.allowance
  | memo k =>
    have hr := resolve_spends op m (.memo k)
    have hstart := @start_resolve_memo op k m
    cases hk : m.memo[k]? with
    | none =>
      simp only [memoized, hk] at hr hstart ⊢
      exact hr.bind_error hstart
    | some h =>
      simp only [memoized, hk, Value.footprint?_eq] at hr hstart ⊢
      by_cases hcost : h.value.cost ≤ m.allowance
      · simp only [if_pos hcost] at hstart
        exact hr.bind_ok hstart (hf _ _)
      · have hnone : granted m.allowance [h.value] ≠ [h.value] := by simp [granted, hcost]
        exact hr.bind_refused hnone _

theorem resolveAll_spends (m : Machine) (slots : List Slot) :
    Spends m ((resolveAll op slots).start m) (memoized m.memo slots) := by
  apply Spends.bind_frugal
  · induction slots generalizing m with
    | nil => exact pure_frugal _ m
    | cons s slots ih =>
      rw [List.mapM_cons]
      apply resolve_spends_bind op s
      intro h allowance
      exact (ih { m with allowance }).bind_frugal fun _ => pure_frugal _
  · intro hs
    exact pure_frugal _

theorem popValue_spends_bind {n : Nat} {f : Held → Process Machine β}
    (hf : ∀ h stack allowance, m.stack.drop 1 = stack →
      Spends { m with stack, allowance } ((f h).start { m with stack, allowance })
        (memoized m.memo (stack.take n))) :
    Spends m ((popValue op >>= f).start m) (memoized m.memo (m.stack.take (n + 1))) := by
  cases hs : m.stack with
  | nil =>
    rw [popValue, bind_assoc, start_bind, start_popSlot_nil op hs]
    exact .nothing rfl rfl
  | cons s stack =>
    rw [popValue, bind_assoc, start_bind, start_popSlot op s stack m hs]
    rw [hs] at hf
    have hrest := fun h allowance => hf h stack allowance rfl
    exact (resolve_spends_bind op s (m := { m with stack }) hrest).of_account rfl rfl

theorem popMarked_spends (m : Machine) : Spends m ((popMarked op).start m)
    (memoized m.memo (if m.suspended.isEmpty then [] else m.stack.reverse)) := by
  cases hs : m.suspended with
  | nil =>
    rw [popMarked, start_bind, start_popMark_nil op hs]
    exact .nothing rfl rfl
  | cons segment suspended =>
    rw [popMarked, start_bind, start_popMark op segment suspended m hs]
    exact (resolveAll_spends { m with stack := segment, suspended } _).of_account rfl rfl

theorem popValues_spends (m : Machine) (n : Nat) : Spends m ((popValues op n).start m)
    (memoized m.memo (if n ≤ m.stack.length then (m.stack.take n).reverse else [])) := by
  apply Spends.bind_get
  have hlength : (m.stack.take n).length = min n m.stack.length := List.length_take
  by_cases hn : n ≤ m.stack.length
  · have hshort : ¬ (m.stack.take n).length < n := by omega
    simp only [if_pos hn, if_neg hshort]
    exact (resolveAll_spends { m with stack := m.stack.drop n } _).of_account rfl rfl
  · have hshort : (m.stack.take n).length < n := by omega
    simp only [if_neg hn, if_pos hshort]
    exact fail_frugal _ m

theorem put_spends (m : Machine) (k : Nat) :
    Spends m ((put op k).start m) (memoized m.memo (m.displaced k)) := by
  have hbind : ∀ h, Frugal ((modify fun m => { m with memo := m.memo.insert k h }) >>= fun _ =>
      pushSlot (.memo k)) := by
    intro h
    have hinsert : Frugal (modify fun m : Machine => { m with memo := m.memo.insert k h }) :=
      fun _ => .nothing rfl rfl
    exact hinsert.bind fun _ => pushSlot_frugal _
  unfold displaced
  cases hs : m.stack with
  | nil =>
    rw [put, start_bind, start_popSlot_nil op hs]
    exact .nothing rfl rfl
  | cons s stack =>
    rw [put, start_bind, start_popSlot op _ _ m hs]
    cases s with
    | owned h => exact (hbind h { m with stack }).of_account rfl rfl
    | memo source =>
      by_cases hk : source = k
      · simp only [if_pos hk]
        exact .nothing rfl rfl
      · simp only [if_neg hk]
        have hcopy := copyMemo_spends op { m with stack } source
        exact (hcopy.bind_frugal hbind).of_account rfl rfl

theorem dup_spends (m : Machine) : Spends m ((dup op).start m) (m.seeks .dup) := by
  have htop : ∀ s stack, m.stack = s :: stack → (topSlot op).start m = (.ok s, m) := by
    intro s stack hs
    rw [topSlot, start_bind]
    simp only [start_get, hs, start_pure]
  unfold seeks
  cases hs : m.stack with
  | nil =>
    rw [dup, start_bind, topSlot, start_bind]
    simp only [start_get, hs, start_fail]
    exact .nothing rfl rfl
  | cons s stack =>
    rw [dup, start_bind, htop s stack hs]
    cases s with
    | owned h => exact (chargeCopy_spends m h.value).bind_frugal fun _ => pushSlot_frugal _
    | memo k => exact pushSlot_frugal _ m

theorem finish_spends (m : Machine) : Spends m (finish.start m) (m.seeks .stop) := by
  apply Spends.bind_get
  unfold seeks emptied
  cases hsuspended : m.suspended.isEmpty with
  | false => exact .nothing rfl rfl
  | true =>
    rw [Bool.true_and]
    match m.stack with
    | [s] =>
      have hr := resolve_spends .stop { m with stack := [] } s
      exact (hr.bind_frugal fun h => pure_frugal h.value).of_account rfl rfl
    | [] => exact .nothing rfl rfl
    | _ :: _ :: _ => exact .nothing rfl rfl

variable {i : Instruction}

theorem move_spends (r : Registry) (h : i.moves = true) (hi : i ≠ .stop) (m : Machine) :
    Spends m ((step r op i).start m) (m.seeks i) := by
  cases i with
  | stop => exact absurd rfl hi
  | nothing => exact pure_frugal _ m
  | inspect => exact topSlot_frugal.bind (fun _ => pure_frugal _) m
  | mark => exact .nothing rfl rfl
  | pop =>
    apply Spends.bind_get
    split
    · exact popMark_frugal.bind (fun _ => pure_frugal _) m
    · exact popSlot_frugal.bind (fun _ => pure_frugal _) m
  | popMark => exact popMark_frugal.bind (fun _ => pure_frugal _) m
  | dup => exact dup_spends m
  | get k => exact pushMemo_frugal k m
  | put k => exact put_spends m k
  | memoize =>
    apply Spends.bind_get
    unfold seeks emptied
    by_cases h : m.memo.size < 2 ^ 32
    · simp only [h, if_true]
      exact put_spends m _
    · simp only [h, if_false]
      exact fail_frugal _ m
  | _ => cases h

theorem make_spends (r : Registry) (h : i.makes = true) (m : Machine) :
    Spends m ((step r op i).start m) (m.seeks i) := by
  have frugal : Effective op Frugal := effective_frugal op
  cases i with
  | tuple n => exact (popValues_spends m n).bind_frugal fun _ => push_frugal _ _
  | gather kind => exact (popMarked_spends m).bind_frugal fun _ => push_frugal _ _
  | gatherDict =>
    exact (popMarked_spends m).bind_frugal fun _ => (frugal.pairs _).bind fun _ =>
      push_frugal _ _
  | stackGlobal =>
    apply popValue_spends_bind (n := 1)
    intro name stack allowance _
    apply popValue_spends_bind (n := 0)
    intro module_ stack allowance _
    split
    · exact push_frugal _ _ _
    · exact fail_frugal _ _
  | _ => cases h

theorem fill_spends (r : Registry) (h : i.fills = true) (m : Machine) :
    Spends m ((step r op i).start m) (m.seeks i) := by
  have frugal : Effective op Frugal := effective_frugal op
  cases i with
  | append => exact popValue_spends_bind (n := 0) fun _ _ _ _ => frugal.extend _ _ _
  | appends => exact (popMarked_spends m).bind_frugal fun _ => frugal.extend _ _
  | setItem =>
    apply popValue_spends_bind (n := 1)
    intro value stack allowance _
    apply popValue_spends_bind (n := 0)
    intro key stack allowance _
    exact frugal.extend _ _ _
  | setItems =>
    exact (popMarked_spends m).bind_frugal fun _ => (frugal.pairs _).bind fun _ =>
      frugal.extend _ _
  | addItems => exact (popMarked_spends m).bind_frugal fun _ => frugal.extend _ _
  | _ => cases h

theorem invoke_spends (r : Registry) (h : i.calls = true) (m : Machine) :
    Spends m ((step r op i).start m) (m.seeks i) := by
  have frugal : Effective op Frugal := effective_frugal op
  cases i with
  | call =>
    apply popValue_spends_bind (n := 1)
    intro args stack allowance _
    apply popValue_spends_bind (n := 0)
    intro callee stack allowance _
    exact (frugal.arguments _).bind (fun _ => call_frugal _ _ _ _) _
  | callWithKeywords =>
    apply popValue_spends_bind (n := 2)
    intro keywords stack allowance _
    apply popValue_spends_bind (n := 1)
    intro args stack allowance _
    apply popValue_spends_bind (n := 0)
    intro callee stack allowance _
    exact (frugal.arguments _).bind (fun _ => call_frugal _ _ _ _) _
  | callMarked =>
    apply (popMarked_spends m).bind_frugal
    intro g
    split
    · exact fail_frugal _
    · exact call_frugal _ _ _ _
  | callNamed name => exact (popMarked_spends m).bind_frugal fun _ => call_frugal _ _ _ _
  | _ => cases h

theorem step_spends (r : Registry) (op : Opcode) (hi : i ≠ .stop) (m : Machine) :
    Spends m ((step r op i).start m) (m.seeks i) := by
  cases i with
  | nothing | stop | inspect | mark | pop | popMark | dup | get | put | memoize =>
    exact move_spends r rfl hi m
  | push v => exact push_frugal 0 v m
  | tuple | gather | gatherDict | stackGlobal => exact make_spends r rfl m
  | append | appends | setItem | setItems | addItems => exact fill_spends r rfl m
  | call | callWithKeywords | callMarked | callNamed => exact invoke_spends r rfl m
  | build => exact popValue_spends_bind (n := 0) fun _ _ _ _ => buildTop_frugal _ _

end PickledModel.Machine
