import PickledModel.Proofs.Value.Slots
import PickledModel.Value.Access

/-! What entries made distinct keep of the given ones. Making them distinct again
changes nothing, entries may be made distinct before others are added, and
under text keys the distinct entries are the members that the given ones set. -/

set_option autoImplicit false

namespace PickledModel

namespace Members

variable {α β : Type} {p : α → Prop}

theorem set_forall {name : String} {v : α} {ms : List (String × α)} (hv : p v)
    (h : ∀ m ∈ ms, p m.2) : ∀ m ∈ set name v ms, p m.2 := by
  induction ms with
  | nil => simpa [set] using hv
  | cons m ms ih =>
    obtain ⟨n, w⟩ := m
    obtain ⟨hw, hms⟩ := List.forall_mem_cons.mp h
    by_cases hn : n = name
    · rw [set, if_pos hn]
      exact List.forall_mem_cons.mpr ⟨hv, hms⟩
    · rw [set, if_neg hn]
      exact List.forall_mem_cons.mpr ⟨hw, ih hms⟩

theorem update_forall {ms new : List (String × α)} (h : ∀ m ∈ ms, p m.2)
    (hnew : ∀ m ∈ new, p m.2) : ∀ m ∈ update ms new, p m.2 := by
  induction new generalizing ms with
  | nil => exact h
  | cons m new ih =>
    obtain ⟨hm, hrest⟩ := List.forall_mem_cons.mp hnew
    exact ih (set_forall hm h) hrest

def mapValues (f : α → β) (ms : List (String × α)) : List (String × β) :=
  ms.map fun m => (m.1, f m.2)

theorem mapValues_set (f : α → β) (name : String) (v : α) (ms : List (String × α)) :
    mapValues f (set name v ms) = set name (f v) (mapValues f ms) := by
  induction ms with
  | nil => rfl
  | cons m ms ih =>
    obtain ⟨n, w⟩ := m
    by_cases hn : n = name
    · simp [set, hn, mapValues]
    · simp only [mapValues] at ih
      simp [set, hn, mapValues, ih]

theorem mapValues_update (f : α → β) (ms new : List (String × α)) :
    mapValues f (update ms new) = update (mapValues f ms) (mapValues f new) := by
  induction new generalizing ms with
  | nil => rfl
  | cons m new ih =>
    change mapValues f (update (set m.1 m.2 ms) new) = _
    rw [ih, mapValues_set]
    rfl

theorem get?_mapValues (f : α → β) (name : String) (ms : List (String × α)) :
    get? name (mapValues f ms) = (get? name ms).map f := by
  induction ms with
  | nil => rfl
  | cons m ms ih =>
    simp only [get?, mapValues, List.map_cons, List.find?_cons] at ih ⊢
    cases m.1 == name with
    | true => rfl
    | false => exact ih

theorem get?_forall {name : String} {v : α} {ms : List (String × α)} (h : ∀ m ∈ ms, p m.2)
    (hv : get? name ms = some v) : p v := by
  obtain ⟨m, hm, rfl⟩ := Option.map_eq_some_iff.mp hv
  exact h m (List.mem_of_find?_eq_some hm)

end Members

namespace Value

theorem distinctEntries_distinctEntries (entries : List (Value × Value)) :
    distinctEntries (distinctEntries entries) = distinctEntries entries := by
  apply distinctEntries_of_pairwise
  rw [distinctEntries_eq_insertEntries]
  exact insertEntries_distinctKeys .nil

theorem distinctEntries_append (entries more : List (Value × Value)) :
    distinctEntries (entries ++ more) = insertEntries (distinctEntries entries) more := by
  rw [distinctEntries_eq_insertEntries, distinctEntries_eq_insertEntries, insertEntries,
    List.foldl_append]
  rfl

/-- Items made distinct are keys without values. -/
theorem distinctEntries_map_none (items : List Value) :
    distinctEntries (items.map (·, none)) = (distinctItems items).map (·, none) := by
  have hnone := distinctEntries_forall (p := fun _ => True) (q := (· = none))
    (items.map (·, none)) fun e he => by
      obtain ⟨v, -, rfl⟩ := List.mem_map.mp he
      exact ⟨trivial, rfl⟩
  rw [distinctItems_eq_map, List.map_map]
  conv => lhs; rw [← List.map_id (distinctEntries _)]
  apply List.map_congr_left
  intro e he
  exact Prod.ext rfl (hnone e he).2

theorem distinctItems_distinctItems (items : List Value) :
    distinctItems (distinctItems items) = distinctItems items := by
  rw [distinctItems_eq_map, ← distinctEntries_map_none, distinctEntries_distinctEntries,
    ← distinctItems_eq_map]

theorem distinctItems_append_congr {items others : List Value}
    (h : distinctItems items = distinctItems others) (more : List Value) :
    distinctItems (items ++ more) = distinctItems (others ++ more) := by
  simp only [distinctItems_eq_map (_ ++ _), List.map_append, distinctEntries_append]
  rw [distinctEntries_map_none, h, ← distinctEntries_map_none]

theorem distinctItems_eq_insertItems (items : List Value) :
    distinctItems items = items.foldl insertItem [] := by
  rw [distinctItems_eq_map, distinctEntries_eq_insertEntries]
  induction items using List.reverseRecOn with
  | nil => rfl
  | append_singleton items v ih =>
    rw [List.map_append, List.map_singleton, insertEntries_concat, map_fst_insertEntry, ih,
      List.foldl_append]
    rfl

/-- Where a collection made distinct may be so before others are added, it may be so each time. -/
theorem foldl_distinct {α : Type} {distinct : List α → List α} (hnil : distinct [] = [])
    (happend : ∀ a b, distinct (distinct a ++ b) = distinct (a ++ b)) (batches : List (List α)) :
    batches.foldl (fun held batch => distinct (held ++ batch)) [] = distinct batches.flatten := by
  induction batches using List.reverseRecOn with
  | nil => exact hnil.symm
  | append_singleton batches batch ih =>
    rw [List.foldl_append, ih, List.foldl_cons, List.foldl_nil, happend, List.flatten_append,
      List.flatten_singleton]

theorem distinctEntries_distinct_append (entries more : List (Value × Value)) :
    distinctEntries (distinctEntries entries ++ more) = distinctEntries (entries ++ more) := by
  rw [distinctEntries_append, distinctEntries_distinctEntries, distinctEntries_append]

theorem distinctItems_distinct_append (items more : List Value) :
    distinctItems (distinctItems items ++ more) = distinctItems (items ++ more) :=
  distinctItems_append_congr (distinctItems_distinctItems items) more

/-- Making keys distinct through an index is to insert them one by one, and to keep the
first of equal keys at its place with the last of their values; of equal items the first
is kept. It may be done once or whenever some are added. -/
theorem distinct_settles (entries more : List (Value × Value)) (items others : List Value)
    (batches : List (List (Value × Value))) (itemBatches : List (List Value)) :
    distinctEntries entries = insertEntries [] entries ∧
    distinctEntries entries = settle entries ∧
    distinctItems items = items.foldl insertItem [] ∧
    distinctItems items = settleItems items ∧
    distinctEntries (distinctEntries entries ++ more) = distinctEntries (entries ++ more) ∧
    distinctItems (distinctItems items ++ others) = distinctItems (items ++ others) ∧
    batches.foldl (fun held batch => distinctEntries (held ++ batch)) [] =
      distinctEntries batches.flatten ∧
    itemBatches.foldl (fun held batch => distinctItems (held ++ batch)) [] =
      distinctItems itemBatches.flatten := by
  have hentries := distinctEntries_eq_insertEntries entries
  refine ⟨hentries, ?_, distinctItems_eq_insertItems items, distinctItems_eq_settleItems items,
    ?_, ?_, ?_, ?_⟩
  · rw [hentries, insertEntries_eq_settle]
  · exact distinctEntries_distinct_append entries more
  · exact distinctItems_distinct_append items others
  · exact foldl_distinct rfl distinctEntries_distinct_append batches
  · exact foldl_distinct rfl distinctItems_distinct_append itemBatches

/-- A NaN is never found again, and the two zeros are one key. -/
example : settle [(.float ⟨0x7ff8000000000000⟩, .int 1), (.float ⟨0⟩, .int 2), (.str "a", .int 3),
      (.float ⟨0x7ff8000000000000⟩, .int 4), (.float ⟨0x8000000000000000⟩, .int 5)] =
    [(.float ⟨0x7ff8000000000000⟩, .int 1), (.float ⟨0⟩, .int 5), (.str "a", .int 3),
      (.float ⟨0x7ff8000000000000⟩, .int 4)] := by cbv

theorem equal_str_eq_true_iff {key : Value} {s : String} :
    key.equal (.str s) = true ↔ key = .str s :=
  equal_leaf_eq_true_iff rfl

theorem str_equal_eq_true_iff {key : Value} {s : String} :
    (str s).equal key = true ↔ key = .str s := by
  rw [equal_eq]
  cases key with
  | leaf l =>
    have hl : (Leaf.str s).equal l = (Leaf.str s == l) := by cases l <;> rfl
    simp only [sameHead, hl, children, List.zip_nil_left, List.all_nil,
      Bool.and_true, beq_iff_eq, leaf.injEq]
    exact eq_comm
  | sequence kind items => simp [sameHead]
  | dict entries => simp [sameHead]
  | object name body => simp [sameHead]

theorem string?_eq_some_iff {v : Value} {s : String} : v.string? = some s ↔ v = .str s := by
  constructor
  · intro h
    unfold string? at h
    split at h
    · rw [Option.some.inj h]
    · cases h
  · rintro rfl
    rfl

def textEntries (entries : List (Value × Value)) : List (String × Value) :=
  entries.filterMap fun e => e.1.string?.map (·, e.2)

theorem textEntries_cons (e : Value × Value) (entries : List (Value × Value)) :
    textEntries (e :: entries) =
      match e.1.string? with
      | some s => (s, e.2) :: textEntries entries
      | .none => textEntries entries := by
  rw [textEntries, List.filterMap_cons]
  cases e.1.string? <;> rfl

theorem textEntries_insertEntry (key value : Value) (rows : List (Value × Value)) :
    textEntries (insertEntry key value rows) =
      match key.string? with
      | some s => Members.set s value (textEntries rows)
      | .none => textEntries rows := by
  induction rows with
  | nil => cases hk : key.string? <;> simp [insertEntry, textEntries, hk, Members.set]
  | cons row rows ih =>
    rw [insertEntry]
    by_cases hr : row.1.equal key = true
    · rw [if_pos hr, textEntries_cons, textEntries_cons]
      cases hk : key.string? with
      | some s =>
        rw [string?_eq_some_iff.mp hk, equal_str_eq_true_iff] at hr
        simp only [hr, string?, Members.set, if_true]
      | none =>
        cases ht : row.1.string? with
        | some t =>
          rw [string?_eq_some_iff.mp ht, str_equal_eq_true_iff] at hr
          rw [hr] at hk
          cases hk
        | none => rfl
    · rw [if_neg hr, textEntries_cons, textEntries_cons, ih]
      cases hk : key.string? with
      | some s =>
        cases ht : row.1.string? with
        | some t =>
          have hne : t ≠ s := by
            rintro rfl
            apply hr
            rw [string?_eq_some_iff.mp hk, string?_eq_some_iff.mp ht, equal_str_eq_true_iff]
          simp only [Members.set, if_neg hne]
        | none => rfl
      | none => rfl

theorem textEntries_insertEntries (done entries : List (Value × Value)) :
    textEntries (insertEntries done entries) =
      Members.update (textEntries done) (textEntries entries) := by
  induction entries generalizing done with
  | nil => rfl
  | cons e entries ih =>
    change textEntries (insertEntries (insertEntry e.1 e.2 done) entries) = _
    rw [ih, textEntries_insertEntry, textEntries_cons]
    cases e.1.string? <;> rfl

theorem textEntries_distinctEntries (entries : List (Value × Value)) :
    textEntries (distinctEntries entries) = Members.ofList (textEntries entries) := by
  rw [distinctEntries_eq_insertEntries, textEntries_insertEntries]
  rfl

theorem get?_eq (key : String) (entries : List (Value × Value)) :
    (dict entries).get? key = Members.get? key (textEntries entries) := by
  rw [get?, Members.get?]
  induction entries with
  | nil => rfl
  | cons e entries ih =>
    rw [textEntries_cons, List.find?_cons]
    cases hs : e.1.string? with
    | none => exact ih
    | some s =>
      rw [List.find?_cons]
      by_cases h : s = key
      · simp [h]
      · have hne : (some s == some key) = false := by simpa using h
        have hne' : (s == key) = false := by simpa using h
        simp only [hne, hne']
        exact ih

/-- If the keys of distinct entries are texts, so are those of the given ones. -/
theorem forall_string?_of_insertEntry {key value : Value} {rows : List (Value × Value)}
    (h : ∀ e ∈ insertEntry key value rows, e.1.string?.isSome) :
    key.string?.isSome ∧ ∀ e ∈ rows, e.1.string?.isSome := by
  induction rows with
  | nil => exact ⟨h _ List.mem_cons_self, by simp⟩
  | cons row rows ih =>
    rw [insertEntry] at h
    by_cases hr : row.1.equal key = true
    · rw [if_pos hr, List.forall_mem_cons] at h
      obtain ⟨s, hs⟩ := Option.isSome_iff_exists.mp h.1
      rw [string?_eq_some_iff.mp hs, str_equal_eq_true_iff] at hr
      refine ⟨by rw [hr]; rfl, List.forall_mem_cons.mpr ⟨h.1, h.2⟩⟩
    · rw [if_neg hr, List.forall_mem_cons] at h
      obtain ⟨hkey, hrows⟩ := ih h.2
      exact ⟨hkey, List.forall_mem_cons.mpr ⟨h.1, hrows⟩⟩

theorem forall_string?_of_distinctEntries {entries : List (Value × Value)}
    (h : ∀ e ∈ distinctEntries entries, e.1.string?.isSome) :
    ∀ e ∈ entries, e.1.string?.isSome := by
  rw [distinctEntries_eq_insertEntries] at h
  suffices hall : ∀ done, (∀ e ∈ insertEntries done entries, e.1.string?.isSome) →
      (∀ e ∈ done, e.1.string?.isSome) ∧ ∀ e ∈ entries, e.1.string?.isSome from (hall [] h).2
  clear h
  induction entries with
  | nil =>
    intro done h
    exact ⟨h, by simp⟩
  | cons e entries ih =>
    intro done h
    obtain ⟨hdone, hentries⟩ := ih (insertEntry e.1 e.2 done) h
    obtain ⟨hkey, hrows⟩ := forall_string?_of_insertEntry hdone
    exact ⟨hrows, List.forall_mem_cons.mpr ⟨hkey, hentries⟩⟩

end Value

end PickledModel
