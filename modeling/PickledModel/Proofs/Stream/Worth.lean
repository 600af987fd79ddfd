import PickledModel.Proofs.Process.Growth
import PickledModel.Proofs.Stream.Copying
import PickledModel.Proofs.Stream.Payments
import PickledModel.Proofs.Value.Worth

/-! What a machine holds in its slots and in its memo, and what the parts of an
instruction add to it. A reference to the memo is worth nothing, for what it stands for
is held in the memo. Where a copy is made, some of the allowance is used up. -/

set_option autoImplicit false

namespace PickledModel

theorem sum_filter_add {α : Type} (f : α → Nat) (q : α → Bool) (l : List α) :
    ((l.filter q).map f).sum + ((l.filter fun a => !q a).map f).sum = (l.map f).sum := by
  have hperm := ((List.filter_append_perm q l).map f).sum_nat
  rwa [List.map_append, List.sum_append] at hperm

open Value

def Slot.worth : Slot → Nat
  | .owned h => h.value.worth
  | .memo _ => 0

def slotsWorth (slots : List Slot) : Nat := (slots.map Slot.worth).sum

@[simp] theorem slotsWorth_nil : slotsWorth [] = 0 := rfl

@[simp] theorem slotsWorth_cons (s : Slot) (slots : List Slot) :
    slotsWorth (s :: slots) = s.worth + slotsWorth slots := rfl

@[simp] theorem slotsWorth_append (slots more : List Slot) :
    slotsWorth (slots ++ more) = slotsWorth slots + slotsWorth more := by
  simp [slotsWorth]

@[simp] theorem slotsWorth_reverse (slots : List Slot) :
    slotsWorth slots.reverse = slotsWorth slots := by
  simp [slotsWorth, List.sum_reverse]

def Memo.worth (memo : Memo) : Nat := (memo.toList.map fun e => e.2.value.worth).sum

theorem Memo.worth_empty : Memo.worth ∅ = 0 := rfl

/-- An entry that is bound again is no longer held. -/
theorem Memo.worth_insert_le (memo : Memo) (k : Nat) (h : Held) :
    Memo.worth (memo.insert k h) + ((memo[k]?.map fun g => g.value.worth).getD 0) ≤
      memo.worth + h.value.worth := by
  have hperm := (Std.TreeMap.toList_insert_perm (t := memo) (k := k) (v := h)).map
    fun e => e.2.value.worth
  have hsplit := sum_filter_add (fun e : Nat × Held => e.2.value.worth)
    (fun e => ¬ (k == e.1) = true) memo.toList
  rw [Memo.worth, Memo.worth, hperm.sum_nat, List.map_cons, List.sum_cons]
  cases hk : memo[k]? with
  | none =>
    simp only [Option.map_none, Option.getD_none]
    omega
  | some g =>
    have hmem : (k, g) ∈ memo.toList := Std.TreeMap.mem_toList_iff_getElem?_eq_some.mpr hk
    have hbound : (k, g) ∈ memo.toList.filter fun e => !decide (¬ (k == e.1) = true) :=
      List.mem_filter.mpr ⟨hmem, by simp⟩
    have hlost : g.value.worth ≤ _ := le_sum_of_mem
      (List.mem_map_of_mem (f := fun e : Nat × Held => e.2.value.worth) hbound)
    simp only [Option.map_some, Option.getD_some]
    omega

theorem Memo.worth_le_of_getElem? {memo : Memo} {k : Nat} {h : Held} (hk : memo[k]? = some h) :
    h.value.worth ≤ memo.worth := by
  apply le_sum_of_mem
  exact List.mem_map_of_mem (Std.TreeMap.mem_toList_iff_getElem?_eq_some.mpr hk)

namespace Machine
open Process

variable {α : Type} {op : Opcode} {m : Machine}

def worth (m : Machine) : Nat :=
  slotsWorth m.stack + slotsWorth m.suspended.flatten + m.memo.worth

def reserve (m : Machine) : Nat := m.worth + m.cursor.reserve

abbrev Adds (p : Process Machine α) (k : Nat) (w : α → Nat) : Prop :=
  Grows Machine.allowance reserve p k w

theorem fail_adds {w : α → Nat} (c : Cause) (k : Nat) :
    Adds (fail op c : Process Machine α) k w :=
  Grows.get fun _ => Grows.throw _ _

theorem onCursor_adds {p : Process Cursor α} {w : α → Nat} (h : Pays p w) :
    Adds (onCursor p) 0 w := by
  apply Grows.on h
  · exact fun _ _ => rfl
  · intro m c
    simp only [reserve, worth]
    omega

/-- A copy that is made uses up some of the allowance. -/
theorem chargeCopy_adds (v : Value) (w : Unit → Nat) : Adds (chargeCopy op v) 0 w := by
  intro m
  rw [start_chargeCopy]
  by_cases hv : v.cost ≤ m.allowance
  · have := cost_pos v
    rw [if_pos hv]
    constructor
    · dsimp only
      omega
    · dsimp only
      intro heq
      omega
  · rw [if_neg hv]
    exact ⟨Nat.le_refl _, fun _ => Nat.le_refl _⟩

theorem copyMemo_adds (k : Nat) (w : Held → Nat) : Adds (copyMemo op k) 0 w := by
  apply Grows.get
  intro m
  cases m.memo[k]? with
  | none => exact fail_adds _ _
  | some h => exact (chargeCopy_adds h.value fun _ => w h).bind fun _ => Grows.pure (Nat.le_refl _)

theorem resolve_adds (s : Slot) : Adds (resolve op s) s.worth fun h => h.value.worth := by
  cases s with
  | owned h => exact Grows.pure (worth_normalize_le h.value)
  | memo k =>
    apply (copyMemo_adds k fun h => h.value.worth).bind
    intro h
    exact Grows.pure (worth_normalize_le h.value)

theorem resolveAll_adds (slots : List Slot) :
    Adds (resolveAll op slots) (slotsWorth slots) fun g => worthAll g.values := by
  apply (Grows.mapM fun s _ => resolve_adds s).bind
  intro hs
  apply Grows.pure
  simp [Gathered.ofHeld, worthAll, Function.comp_def]

theorem popSlot_adds : Adds (popSlot op) 0 Slot.worth := by
  intro m
  cases hs : m.stack with
  | nil =>
    rw [start_popSlot_nil op hs]
    exact ⟨Nat.le_refl _, fun _ => Nat.le_refl _⟩
  | cons s stack =>
    rw [start_popSlot op s stack m hs]
    refine ⟨Nat.le_refl _, fun _ => ?_⟩
    simp only [reserve, worth, worthOf, hs, slotsWorth_cons]
    omega

theorem popMark_adds : Adds (popMark op) 0 slotsWorth := by
  intro m
  cases hs : m.suspended with
  | nil =>
    rw [start_popMark_nil op hs]
    exact ⟨Nat.le_refl _, fun _ => Nat.le_refl _⟩
  | cons segment suspended =>
    rw [start_popMark op segment suspended m hs]
    refine ⟨Nat.le_refl _, fun _ => ?_⟩
    simp only [reserve, worth, worthOf, hs, List.flatten_cons, slotsWorth_append,
      slotsWorth_reverse]
    omega

theorem popValue_adds : Adds (popValue op) 0 fun h => h.value.worth :=
  popSlot_adds.bind fun s => resolve_adds s

theorem popMarked_adds : Adds (popMarked op) 0 fun g => worthAll g.values :=
  popMark_adds.bind fun slots => resolveAll_adds slots

theorem popValues_adds (n : Nat) : Adds (popValues op n) 0 fun g => worthAll g.values := by
  intro m
  rw [popValues, start_bind, start_get]
  dsimp only
  split
  · exact fail_adds _ _ m
  · rw [start_bind, start_set]
    apply (resolveAll_adds (m.stack.take n).reverse { m with stack := m.stack.drop n }).after
    · exact Nat.le_refl _
    · intro _
      have hsplit := slotsWorth_append (m.stack.take n) (m.stack.drop n)
      rw [List.take_append_drop] at hsplit
      simp only [reserve, worth, slotsWorth_reverse]
      omega

theorem checkDepth_adds (depth : Nat) : Adds (checkDepth op depth) 0 fun _ => 0 := by
  intro m
  rw [start_checkDepth]
  refine ⟨Nat.le_refl _, fun _ => ?_⟩
  split <;> exact Nat.le_refl _

theorem pushSlot_adds (s : Slot) : Adds (pushSlot s) s.worth fun _ => 0 := by
  apply Grows.modify
  · exact fun _ => rfl
  · intro m
    simp only [reserve, worth, slotsWorth_cons]
    omega

theorem push_adds (n : Nat) (v : Value) : Adds (push op n v) v.worth fun _ => 0 :=
  ((checkDepth_adds _).spare v.worth).bind fun _ => pushSlot_adds _

theorem pushMemo_adds (k : Nat) : Adds (pushMemo op k) 0 fun _ => 0 := by
  apply Grows.get
  intro m
  split
  · exact pushSlot_adds (.memo k)
  · exact fail_adds _ _

theorem put_adds (k : Nat) : Adds (put op k) 0 fun _ => 0 := by
  have hbind : ∀ h : Held, Adds ((modify fun m => { m with memo := m.memo.insert k h }) >>= fun _ =>
      pushSlot (.memo k)) h.value.worth fun _ => 0 := by
    intro h
    apply Grows.bind (w := fun _ => 0)
    · apply Grows.modify
      · exact fun _ => rfl
      · intro m
        have := Memo.worth_insert_le m.memo k h
        simp only [reserve, worth]
        omega
    · exact fun _ => pushSlot_adds (.memo k)
  apply popSlot_adds.bind
  intro s
  cases s with
  | owned h => exact hbind h
  | memo source =>
    by_cases hk : source = k
    · simp only [if_pos hk]
      exact pushSlot_adds (.memo k)
    · simp only [if_neg hk]
      exact (copyMemo_adds source fun h => h.value.worth).bind hbind

theorem topSlot_adds : Adds (topSlot op) 0 fun _ => 0 := by
  apply Grows.get
  intro m
  split
  · exact Grows.pure (Nat.le_refl 0)
  · exact fail_adds _ _

theorem dup_adds : Adds (dup op) 0 fun _ => 0 := by
  apply topSlot_adds.bind
  intro s
  cases s with
  | owned h =>
    exact (chargeCopy_adds h.value fun _ => h.value.worth).bind fun _ => pushSlot_adds (.owned h)
  | memo k => exact pushSlot_adds (.memo k)

theorem mapTop_of_top?_eq_none {f : Held → Held} (ht : m.top? = Option.none) :
    m.mapTop f = m := by
  cases hs : m.stack with
  | nil => exact mapTop_nil f hs
  | cons s stack =>
    rw [top?, hs, List.head?_cons, Option.bind_some] at ht
    cases s with
    | owned h => cases ht
    | memo k =>
      rcases mapTop_memo f hs with ⟨h, hk, -⟩ | ⟨-, hmap⟩
      · have := ht.symm.trans hk
        cases this
      · exact hmap

theorem reserve_mapTop_le (f : Held → Held) {h : Held} (ht : m.top? = some h) :
    (m.mapTop f).allowance = m.allowance ∧
      (m.mapTop f).reserve + h.value.worth ≤ m.reserve + (f h).value.worth := by
  cases hs : m.stack with
  | nil =>
    rw [top?, hs] at ht
    cases ht
  | cons s stack =>
    rw [top?, hs, List.head?_cons, Option.bind_some] at ht
    cases s with
    | owned g =>
      obtain rfl := Option.some.inj ht
      rw [mapTop_owned f hs]
      refine ⟨rfl, ?_⟩
      simp only [reserve, worth, hs, slotsWorth_cons, Slot.worth]
      omega
    | memo k =>
      have hbound : m.memo[k]? = some h := ht
      rcases mapTop_memo f hs with ⟨g, hk, hmap⟩ | ⟨hk, -⟩
      · obtain rfl := Option.some.inj (hbound.symm.trans hk)
        have hinsert := Memo.worth_insert_le m.memo k (f h)
        rw [hk, Option.map_some, Option.getD_some] at hinsert
        rw [hmap]
        refine ⟨rfl, ?_⟩
        simp only [reserve, worth]
        omega
      · have := hbound.symm.trans hk
        cases this

theorem reserve_deepened_le (n : Nat) (m : Machine) :
    (m.deepened n).allowance = m.allowance ∧ (m.deepened n).reserve ≤ m.reserve := by
  cases ht : m.top? with
  | none =>
    rw [deepened, mapTop_of_top?_eq_none ht]
    exact ⟨rfl, Nat.le_refl _⟩
  | some h =>
    obtain ⟨hallowance, hreserve⟩ :=
      reserve_mapTop_le (fun h => { h with depth := max h.depth (n + 1) }) ht
    exact ⟨hallowance, Nat.le_of_add_le_add_right hreserve⟩

/-- A change of the uppermost value starts from a machine that holds the same. -/
theorem target_adds {n k : Nat} {f : Value → Process Machine Unit}
    (hf : ∀ m h, m.top? = some h →
      GrowsFrom Machine.allowance reserve m ((f h.value).start m) k fun _ => 0) :
    Adds (target op n >>= f) k fun _ => 0 := by
  intro m
  obtain ⟨hallowance, hreserve⟩ := reserve_deepened_le n m
  rw [start_bind]
  by_cases h : n + 1 ≤ maxNesting
  · rcases start_target op m h with ⟨g, ht, he⟩ | ⟨-, e, he⟩
    · rw [he]
      apply (hf _ g ht).after
      · exact Nat.le_of_eq hallowance
      · intro _
        omega
    · rw [he]
      refine ⟨Nat.le_of_eq hallowance, fun _ => ?_⟩
      simp only [worthOf]
      omega
  · rw [target, start_bind, start_deepenTop, if_pos (Nat.not_le.mp h)]
    exact ⟨Nat.le_refl _, fun _ => Nat.le_add_right _ _⟩

theorem setTarget_adds {h : Held} {v : Value} {j : Nat} (ht : m.top? = some h)
    (hv : v.worth ≤ h.value.worth + j) :
    GrowsFrom Machine.allowance reserve m ((setTarget v).start m) j fun _ => 0 := by
  obtain ⟨hallowance, hreserve⟩ := reserve_mapTop_le (fun h => { h with value := v }) ht
  refine ⟨Nat.le_of_eq hallowance, fun _ => ?_⟩
  change (m.mapTop fun h => { h with value := v }).reserve ≤ _
  dsimp only at hreserve
  omega

end Machine
end PickledModel
