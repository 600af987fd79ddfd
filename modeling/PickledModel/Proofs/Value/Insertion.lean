import Mathlib.Data.List.Induction
import PickledModel.Proofs.Value.Equality

/-! Entries inserted one by one, with a search for an equal key. Their keys are distinct,
and they can be said place by place: an entry stays if no entry before it has an equal
key, and takes the last value given under an equal key. -/

set_option autoImplicit false

namespace PickledModel.Value

def insertEntry (key value : Value) : List (Value × Value) → List (Value × Value)
  | [] => [(key, value)]
  | e :: rest => if e.1.equal key then (e.1, value) :: rest else e :: insertEntry key value rest

def insertEntries (done : List (Value × Value)) (entries : List (Value × Value)) :
    List (Value × Value) :=
  entries.foldl (fun done e => insertEntry e.1 e.2 done) done

section
variable {p q : Value → Prop}

theorem insertEntry_forall {key value : Value} {rows : List (Value × Value)} (hk : p key)
    (hv : q value) (h : ∀ e ∈ rows, p e.1 ∧ q e.2) :
    ∀ e ∈ insertEntry key value rows, p e.1 ∧ q e.2 := by
  induction rows with
  | nil =>
    intro e he
    obtain rfl := List.mem_singleton.mp he
    exact ⟨hk, hv⟩
  | cons row rows ih =>
    obtain ⟨hrow, hrows⟩ := List.forall_mem_cons.mp h
    rw [insertEntry]
    by_cases hr : row.1.equal key = true
    · rw [if_pos hr]
      exact List.forall_mem_cons.mpr ⟨⟨hrow.1, hv⟩, hrows⟩
    · rw [if_neg hr]
      exact List.forall_mem_cons.mpr ⟨hrow, ih hrows⟩

theorem insertEntries_forall {done entries : List (Value × Value)}
    (hd : ∀ e ∈ done, p e.1 ∧ q e.2) (h : ∀ e ∈ entries, p e.1 ∧ q e.2) :
    ∀ e ∈ insertEntries done entries, p e.1 ∧ q e.2 := by
  induction entries generalizing done with
  | nil => exact hd
  | cons e entries ih =>
    obtain ⟨he, hes⟩ := List.forall_mem_cons.mp h
    exact ih (insertEntry_forall he.1 he.2 hd) hes

end

theorem insertEntry_of_absent {key value : Value} {rows : List (Value × Value)}
    (h : ∀ row ∈ rows, row.1.equal key = false) :
    insertEntry key value rows = rows ++ [(key, value)] := by
  induction rows with
  | nil => rfl
  | cons row rows ih =>
    rw [insertEntry, if_neg (by simp [h row (by simp)]), ih fun r hr => h r (by simp [hr])]
    rfl

/-- Keys that differ from all before them are put down in their order. -/
theorem insertEntries_of_distinct {done entries : List (Value × Value)}
    (h : (done ++ entries).Pairwise fun a b => a.1.equal b.1 = false) :
    insertEntries done entries = done ++ entries := by
  induction entries generalizing done with
  | nil => simp [insertEntries]
  | cons e entries ih =>
    have hd := (List.pairwise_append.mp h).2.2
    have hi : insertEntry e.1 e.2 done = done ++ [e] :=
      insertEntry_of_absent fun row hr => hd row hr e (by simp)
    rw [insertEntries, List.foldl_cons, hi, ← insertEntries, ih (by simpa using h)]
    simp

abbrev DistinctKeys (rows : List (Value × Value)) : Prop :=
  rows.Pairwise fun a b => a.1.equal b.1 = false

theorem insertEntry_distinctKeys {key value : Value} {rows : List (Value × Value)}
    (h : DistinctKeys rows) : DistinctKeys (insertEntry key value rows) := by
  induction rows with
  | nil => exact List.pairwise_singleton _ _
  | cons row rows ih =>
    obtain ⟨hrow, hrows⟩ := List.pairwise_cons.mp h
    rw [insertEntry]
    by_cases hr : row.1.equal key = true
    · rw [if_pos hr]
      exact List.pairwise_cons.mpr ⟨hrow, hrows⟩
    · rw [if_neg hr]
      refine List.pairwise_cons.mpr ⟨?_, ih hrows⟩
      have hkey : row.1.equal key = false := by simpa using hr
      intro e he
      exact (insertEntry_forall (p := fun k => row.1.equal k = false) (q := fun _ => True)
        hkey trivial (fun e he => ⟨hrow e he, trivial⟩) e he).1

theorem insertEntries_distinctKeys {done entries : List (Value × Value)} (h : DistinctKeys done) :
    DistinctKeys (insertEntries done entries) := by
  induction entries generalizing done with
  | nil => exact h
  | cons e entries ih => exact ih (insertEntry_distinctKeys h)

def lastValue (e : Value × Value) (later : List (Value × Value)) : Value :=
  ((later.filter fun f => e.1.equal f.1).getLast?.getD e).2

def settledSlots (entries : List (Value × Value)) : List (Option (Value × Value)) :=
  entries.zipIdx.map fun (e, i) =>
    if (entries.take i).any fun f => f.1.equal e.1 then .none
    else some (e.1, lastValue e (entries.drop (i + 1)))

/-- The entries whose keys equal none before them, each with the last value of its key. -/
def settle (entries : List (Value × Value)) : List (Value × Value) :=
  (settledSlots entries).filterMap id

def settleItems (items : List Value) : List Value :=
  items.zipIdx.filterMap fun (v, i) =>
    if (items.take i).any fun w => w.equal v then Option.none else some v

def insertItem (done : List Value) (v : Value) : List Value :=
  if done.any fun w => w.equal v then done else done ++ [v]

def takeValue (key value : Value) (row : Value × Value) : Value × Value :=
  if row.1.equal key then (row.1, value) else row

variable {key value : Value} {rows entries : List (Value × Value)} {e f : Value × Value}

/-- Only one row can have the key, so that it does not matter that the first one is taken. -/
theorem insertEntry_eq_map (h : DistinctKeys rows) :
    insertEntry key value rows =
      rows.map (takeValue key value) ++
        if rows.any fun row => row.1.equal key then [] else [(key, value)] := by
  induction rows with
  | nil => rfl
  | cons row rows ih =>
    obtain ⟨hrow, hrows⟩ := List.pairwise_cons.mp h
    rw [insertEntry, List.map_cons, List.any_cons, takeValue]
    by_cases hr : row.1.equal key = true
    · have hothers : rows.map (takeValue key value) = rows := by
        conv => rhs; rw [← List.map_id rows]
        apply List.map_congr_left
        intro r hmem
        have hne : ¬ r.1.equal key = true := by
          intro hkey
          have hsame := equal_of_equal_of_equal hr hkey
          rw [hrow r hmem] at hsame
          cases hsame
        rw [takeValue, if_neg hne, id]
      simp [hr, hothers]
    · rw [Bool.not_eq_true] at hr
      rw [hr, Bool.false_or, ih hrows]
      rfl

/-- A key equals a row afterwards if it equaled one before or the new key. -/
theorem any_insertEntry (k : Value) :
    (insertEntry key value rows).any (fun row => row.1.equal k) =
      (rows.any (fun row => row.1.equal k) || key.equal k) := by
  induction rows with
  | nil => simp [insertEntry]
  | cons row rows ih =>
    rw [insertEntry, List.any_cons]
    by_cases hr : row.1.equal key = true
    · have hkey : key.equal k = true → row.1.equal k = true := equal_trans hr
      rw [if_pos hr, List.any_cons]
      cases hk : key.equal k with
      | true => simp [hkey hk]
      | false => simp
    · rw [if_neg hr, List.any_cons, ih, Bool.or_assoc]

theorem any_insertEntries (k : Value) (done : List (Value × Value)) :
    (insertEntries done entries).any (fun row => row.1.equal k) =
      (done.any (fun row => row.1.equal k) || entries.any (fun row => row.1.equal k)) := by
  induction entries generalizing done with
  | nil => simp [insertEntries]
  | cons e entries ih =>
    change (insertEntries (insertEntry e.1 e.2 done) entries).any _ = _
    rw [ih, any_insertEntry, List.any_cons, Bool.or_assoc]

theorem insertEntries_concat (done entries : List (Value × Value)) (e : Value × Value) :
    insertEntries done (entries ++ [e]) = insertEntry e.1 e.2 (insertEntries done entries) := by
  rw [insertEntries, List.foldl_append]
  rfl

theorem lastValue_append (later : List (Value × Value)) :
    lastValue e (later ++ [f]) = if e.1.equal f.1 then f.2 else lastValue e later := by
  rw [lastValue, List.filter_append]
  by_cases h : e.1.equal f.1 = true
  · simp [h]
  · simp [h, lastValue]

/-- One entry more gives its value to the row of its key, or a row of its own. -/
theorem settledSlots_append :
    settledSlots (entries ++ [e]) =
      (settledSlots entries).map (Option.map (takeValue e.1 e.2)) ++
        [if entries.any fun f => f.1.equal e.1 then .none else some e] := by
  rw [settledSlots, settledSlots, List.zipIdx_append, List.map_append, List.map_map]
  congr 1
  · apply List.map_congr_left
    rintro ⟨f, i⟩ hmem
    have hi : i < entries.length := by simpa using (List.mem_zipIdx hmem).2.1
    have htake : (entries ++ [e]).take i = entries.take i :=
      List.take_append_of_le_length (Nat.le_of_lt hi)
    have hdrop : (entries ++ [e]).drop (i + 1) = entries.drop (i + 1) ++ [e] :=
      List.drop_append_of_le_length hi
    simp only [Function.comp_apply, htake, hdrop, lastValue_append]
    split
    · rfl
    · by_cases h : f.1.equal e.1 = true
      · simp [h, takeValue]
      · simp [h, takeValue]
  · by_cases h : (entries.any fun f => f.1.equal e.1) = true
    · simp [h]
    · simp [h, lastValue]

theorem settle_append :
    settle (entries ++ [e]) =
      (settle entries).map (takeValue e.1 e.2) ++
        if entries.any fun f => f.1.equal e.1 then [] else [e] := by
  rw [settle, settledSlots_append, List.filterMap_append, settle, List.map_filterMap,
    List.filterMap_map]
  congr 1
  split <;> rfl

/-- By induction from the last entry: the rows before it are already settled, and it
finds its row among them. -/
theorem insertEntries_eq_settle (entries : List (Value × Value)) :
    insertEntries [] entries = settle entries := by
  induction entries using List.reverseRecOn with
  | nil => rfl
  | append_singleton entries e ih =>
    rw [insertEntries_concat, insertEntry_eq_map (insertEntries_distinctKeys .nil),
      any_insertEntries, ih, settle_append]
    rfl

theorem map_fst_insertEntry :
    (insertEntry key value rows).map Prod.fst = insertItem (rows.map Prod.fst) key := by
  induction rows with
  | nil => rfl
  | cons row rows ih =>
    rw [insertEntry, insertItem, List.map_cons, List.any_cons]
    by_cases hr : row.1.equal key = true
    · simp [hr]
    · rw [if_neg hr, List.map_cons, ih, insertItem]
      by_cases hany : ((rows.map Prod.fst).any fun w => w.equal key) = true
      · simp [hr, hany]
      · simp [hr, hany]

theorem map_fst_settle (items : List Value) :
    (settle (items.map (·, none))).map Prod.fst = settleItems items := by
  rw [settle, settledSlots, settleItems, List.map_filterMap, List.zipIdx_map, List.map_map,
    List.filterMap_map]
  apply List.filterMap_congr
  rintro ⟨v, i⟩ -
  simp only [Function.comp_apply, Prod.map, id, ← List.map_take, List.any_map]
  rw [apply_ite (Option.map Prod.fst)]
  rfl

end PickledModel.Value
