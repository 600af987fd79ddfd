import PickledModel.Proofs.Stream.Growth

/-! The copies of a whole load and of loads in a row. -/

set_option autoImplicit false

namespace PickledModel.Machine
open Process

def soughtNext (m : Machine) : List Value :=
  match m.cursor.fetch? with
  | some (_, i, _) => m.seeks i
  | none => []

def soughtBy (r : Registry) : Nat → Machine → List Value
  | 0, _ => []
  | bytes + 1, m => m.soughtNext ++
    match (next r).start m with
    | (.ok none, m) => soughtBy r bytes m
    | _ => []

def sought (r : Registry) (m : Machine) : List Value :=
  soughtBy r m.cursor.size { m with reports := [] }

def copies (r : Registry) (m : Machine) : List Value := granted m.allowance (m.sought r)

theorem perform_spends (r : Registry) (op : Opcode) (i : Instruction) (m : Machine) :
    Spends m ((perform r op i).start m) (m.seeks i) := by
  cases i with
  | stop => exact (finish_spends m).bind_frugal fun _ => pure_frugal _
  | _ => exact (step_spends r op (by simp) m).bind_frugal fun _ => pure_frugal _

theorem next_spends (r : Registry) (m : Machine) : Spends m ((next r).start m) m.soughtNext := by
  unfold soughtNext
  cases hfetch : m.cursor.fetch? with
  | none =>
    obtain ⟨e, c, hstart⟩ := start_next_of_fetch?_eq_none (r := r) hfetch
    rw [hstart]
    exact .nothing rfl rfl
  | some o =>
    obtain ⟨op, i, c⟩ := o
    rw [start_next_of_fetch? hfetch]
    exact (perform_spends r op i { m with cursor := c }).of_account rfl rfl

theorem run_spends (r : Registry) (bytes : Nat) (m : Machine) :
    Spends m (run r bytes m) (soughtBy r bytes m) := by
  induction bytes generalizing m with
  | zero => exact .nothing rfl rfl
  | succ bytes ih =>
    have hnext := next_spends r m
    rw [run, soughtBy]
    rcases hstart : (next r).start m with ⟨e | v, m'⟩
    · rw [hstart] at hnext
      rw [List.append_nil]
      exact hnext.of_error
    · rw [hstart] at hnext
      cases v with
      | none => exact hnext.then_ok (ih m')
      | some v => exact hnext.then_ok (.nothing rfl rfl)

theorem load_spends (r : Registry) (m : Machine) : Spends m (m.load r) (m.sought r) :=
  (run_spends r m.cursor.size { m with reports := [] }).of_account rfl rfl

def loaded (m : Machine) : List Registry → Machine
  | [] => m
  | r :: rs => loaded (m.load r).2 rs

def copiesOf (m : Machine) : List Registry → List Value
  | [] => []
  | r :: rs => m.copies r ++ copiesOf (m.load r).2 rs

theorem loaded_account (m : Machine) (rs : List Registry) :
    (m.loaded rs).copyLimit = m.copyLimit ∧
      (m.loaded rs).allowance + costs (m.copiesOf rs) = m.allowance := by
  induction rs generalizing m with
  | nil => exact ⟨rfl, rfl⟩
  | cons r rs ih =>
    obtain ⟨hlimit, hallowance⟩ := ih (m.load r).2
    have hload := load_spends r m
    constructor
    · rw [loaded, hlimit, hload.limit]
    · have := hload.allowance
      rw [loaded, copiesOf, costs_append, copies]
      omega

/-- What a reachable machine holds has been paid for by the bytes read so far,
unless copies have been made. -/
theorem Reachable.paid {data : Bytes} {m : Machine} (hm : Reachable data m) :
    m.copyLimit = copyLimitFor data.length ∧ m.allowance ≤ copyLimitFor data.length ∧
      (m.allowance = copyLimitFor data.length → m.reserve ≤ 4 * data.length) := by
  induction hm with
  | ofBytes =>
    refine ⟨rfl, Nat.le_refl _, fun _ => ?_⟩
    simp [Machine.ofBytes, reserve, worth, Memo.worth_empty, Cursor.reserve, Cursor.ofBytes,
      Cursor.size]
  | load _ ih => exact ih
  | @next r m hm ih =>
    obtain ⟨hlimit, hle, hpaid⟩ := ih
    have hspends := next_spends r m
    have hadds := next_adds r m
    have hclock := hadds.clock_le
    refine ⟨hspends.limit.trans hlimit, by omega, fun heq => ?_⟩
    have hreserve := hpaid (by omega)
    have hsize := hadds.size_le (by omega)
    omega

theorem worth_le_of_mem_memoized {m : Machine} {slots : List Slot} {v : Value}
    (h : v ∈ memoized m.memo slots) : v.worth ≤ m.worth := by
  induction slots with
  | nil => cases h
  | cons s slots ih =>
    cases s with
    | owned g => exact ih h
    | memo k =>
      rw [memoized] at h
      cases hk : m.memo[k]? with
      | none =>
        simp only [hk] at h
        cases h
      | some g =>
        simp only [hk] at h
        rcases List.mem_cons.mp h with rfl | h
        · have := Memo.worth_le_of_getElem? hk
          rw [worth]
          omega
        · exact ih h

/-- Nothing is copied but what the machine holds. -/
theorem worth_le_of_mem_soughtNext {m : Machine} {v : Value} (h : v ∈ m.soughtNext) :
    v.worth ≤ m.worth := by
  unfold soughtNext at h
  split at h
  · next op i c _ =>
    cases i with
    | dup =>
      rw [seeks] at h
      cases hs : m.stack with
      | nil =>
        simp only [hs] at h
        cases h
      | cons s stack =>
        cases s with
        | memo k =>
          simp only [hs] at h
          cases h
        | owned g =>
          simp only [hs] at h
          obtain rfl := List.mem_singleton.mp h
          rw [worth, hs, slotsWorth_cons, Slot.worth]
          omega
    | _ => exact worth_le_of_mem_memoized h
  · cases h

theorem mem_granted_soughtBy {data : Bytes} {r : Registry} {bytes : Nat} {m : Machine}
    (hm : Reachable data m) {v : Value} (h : v ∈ granted m.allowance (soughtBy r bytes m)) :
    ∃ m', Reachable data m' ∧ v ∈ m'.soughtNext ∧ v.cost ≤ m'.allowance := by
  induction bytes generalizing m with
  | zero => cases h
  | succ bytes ih =>
    have hspends := next_spends r m
    have hnext := hm.next r
    rw [soughtBy] at h
    -- the instruction gets all copies that it seeks, or the first that it does not get ends the run
    by_cases hall : granted m.allowance m.soughtNext = m.soughtNext
    · rw [granted_append_of_eq hall] at h
      rcases List.mem_append.mp h with h | h
      · rw [← hall] at h
        obtain ⟨hv, hcost⟩ := mem_granted h
        exact ⟨m, hm, hv, hcost⟩
      · have hallowance := hspends.allowance
        rw [hall] at hallowance
        rcases hstart : (next r).start m with ⟨e | w, m'⟩
        · rw [hstart] at h
          cases h
        · rw [hstart] at h hallowance hnext
          cases w with
          | none =>
            have hleft : m.allowance - costs m.soughtNext = m'.allowance := by
              dsimp only at hallowance
              omega
            rw [hleft] at h
            exact ih hnext h
          | some w => cases h
    · rw [granted_append_of_ne hall] at h
      obtain ⟨hv, hcost⟩ := mem_granted h
      exact ⟨m, hm, hv, hcost⟩

theorem mem_copiesOf {data : Bytes} {rs : List Registry} {m : Machine} (hm : Reachable data m)
    {v : Value} (h : v ∈ m.copiesOf rs) :
    ∃ m', Reachable data m' ∧ v ∈ m'.soughtNext ∧ v.cost ≤ m'.allowance := by
  induction rs generalizing m with
  | nil => cases h
  | cons r rs ih =>
    rcases List.mem_append.mp h with h | h
    · exact mem_granted_soughtBy hm.load h
    · exact ih (hm.loaded r) h

theorem copyLimitFor_le (length : Nat) :
    copyLimitFor length ≤ Value.largestSize ∧
      copyLimitFor length ≤ max (64 * 2 ^ 20) (128 * length) := by
  rw [copyLimitFor, Value.largestSize]
  omega

/-- A value too large for its size to be a word can be copied only while nothing
has been copied, and so holds no more values than the stream has paid for. -/
theorem count_le_of_mem_copiesOf {data : Bytes} {rs : List Registry} {v : Value}
    (h : v ∈ (ofBytes data).copiesOf rs) :
    32 * v.count ≤ v.cost ∨
      v.cost = copyLimitFor data.length ∧ 32 * v.count ≤ 128 * data.length := by
  obtain ⟨m, hm, hv, hcost⟩ := mem_copiesOf .ofBytes h
  obtain ⟨hlimit, hle, hpaid⟩ := hm.paid
  have hlargest := (copyLimitFor_le data.length).1
  have hsize := v.count_le_size
  rw [Value.cost] at hcost ⊢
  by_cases hword : v.size ≤ Value.largestSize
  · left
    omega
  · right
    have hreserve := hpaid (by omega)
    have hworth := worth_le_of_mem_soughtNext hv
    have hcount := v.count_le_worth
    rw [reserve] at hreserve
    omega

theorem eq_nil_of_costs_eq_zero {vs : List Value} (h : costs vs = 0) : vs = [] := by
  cases vs with
  | nil => rfl
  | cons v vs =>
    have := v.cost_pos
    rw [costs_cons] at h
    omega

theorem sum_count_le {limit bound : Nat} {vs : List Value} (hcosts : costs vs ≤ limit)
    (hlimit : limit ≤ bound)
    (h : ∀ v ∈ vs, 32 * v.count ≤ v.cost ∨ v.cost = limit ∧ 32 * v.count ≤ bound) :
    32 * (vs.map Value.count).sum ≤ bound := by
  by_cases hsmall : ∀ v ∈ vs, 32 * v.count ≤ v.cost
  · have hle : 32 * (vs.map Value.count).sum ≤ costs vs := by
      clear hcosts h
      induction vs with
      | nil => exact Nat.le_refl 0
      | cons v vs ih =>
        obtain ⟨hv, hvs⟩ := List.forall_mem_cons.mp hsmall
        have := ih hvs
        rw [costs_cons, List.map_cons, List.sum_cons]
        omega
    omega
  · -- a copy that costs the whole limit leaves room for no other
    obtain ⟨v, hv, hlarge⟩ : ∃ v ∈ vs, ¬ 32 * v.count ≤ v.cost := by simpa using hsmall
    have hone := h v hv
    obtain ⟨before, after, rfl⟩ := List.append_of_mem hv
    rw [costs_append, costs_cons] at hcosts
    have hbefore : before = [] := eq_nil_of_costs_eq_zero (by omega)
    have hafter : after = [] := eq_nil_of_costs_eq_zero (by omega)
    rw [hbefore, hafter]
    simp only [List.nil_append, List.map_cons, List.map_nil, List.sum_cons, List.sum_nil]
    omega

/-- All copies that a load seeks are made, or the first that costs more than is
left of the limit is not made and ends the load. -/
def StopsAtRefusal (limit : Nat) (r : Registry) (m : Machine) : Prop :=
  m.copies r = m.sought r ∨ ∃ v rest, m.sought r = m.copies r ++ v :: rest ∧
    (m.load r).2.allowance < v.cost ∧ Refused limit (m.load r).1

theorem load_stops (r : Registry) (m : Machine) : StopsAtRefusal m.copyLimit r m := by
  have hload := load_spends r m
  rcases granted_cases m.allowance (m.sought r) with hall | ⟨v, rest, hsplit, hcost⟩
  · exact .inl hall
  · have hallowance := hload.allowance
    refine .inr ⟨v, rest, hsplit, by omega, hload.refused fun heq => ?_⟩
    rw [heq] at hsplit
    simpa using congrArg List.length hsplit

/-- Over loads in a row the costs of the copies are taken from the limit exactly,
and the values copied, at 32 bytes each, are within it; the next load stops at
the first copy that would pass it. -/
theorem copies_within_limit (data : Bytes) (rs : List Registry) :
    ((ofBytes data).loaded rs).allowance + costs ((ofBytes data).copiesOf rs) =
        copyLimitFor data.length ∧
      32 * (((ofBytes data).copiesOf rs).map Value.count).sum ≤
        max (64 * 2 ^ 20) (128 * data.length) ∧
      ∀ r, StopsAtRefusal (copyLimitFor data.length) r ((ofBytes data).loaded rs) := by
  obtain ⟨hlimit, hallowance⟩ := loaded_account (ofBytes data) rs
  change _ = copyLimitFor data.length at hlimit hallowance
  refine ⟨hallowance, ?_, ?_⟩
  · apply sum_count_le (le_of_add_le_right hallowance.le) (copyLimitFor_le data.length).2
    intro v hv
    have := count_le_of_mem_copiesOf hv
    omega
  · intro r
    have := load_stops r ((ofBytes data).loaded rs)
    rwa [hlimit] at this

end PickledModel.Machine
