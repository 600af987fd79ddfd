import Mathlib
import PickledModel.Object.Registry
import PickledModel.Proofs.Value.Members

/-! The states of an instance are merged like dicts. Restored by any number of states, each
of them nothing, a dict of names or a pair of states, an instance has the attributes that
one update by all their entries in order gives: a name keeps its first place and takes its
last value, so that the entries may be made distinct before. -/

set_option autoImplicit false

namespace PickledModel

namespace Members

variable {α : Type} {name other : String} {v w : α} {ms new : List (String × α)}

theorem set_set (name : String) (v w : α) (ms : List (String × α)) :
    set name v (set name w ms) = set name v ms := by
  induction ms with
  | nil => simp [set]
  | cons m ms ih =>
    obtain ⟨n, u⟩ := m
    by_cases hn : n = name
    · simp [set, hn]
    · simp [set, hn, ih]

/-- A name that is there keeps its place, so that it may be set before others. -/
theorem set_comm (hne : name ≠ other) (hname : name ∈ ms.map Prod.fst) :
    set name v (set other w ms) = set other w (set name v ms) := by
  induction ms with
  | nil => cases hname
  | cons m ms ih =>
    obtain ⟨n, u⟩ := m
    by_cases hn : n = name
    · subst hn
      simp [set, hne]
    · have hrest : name ∈ ms.map Prod.fst := by simpa [Ne.symm hn] using hname
      by_cases ho : n = other
      · simp [set, ho, hne.symm]
      · simp [set, hn, ho, ih hrest]

theorem set_update (hname : name ∈ ms.map Prod.fst) (hnew : name ∉ new.map Prod.fst) :
    set name v (update ms new) = update (set name v ms) new := by
  induction new generalizing ms with
  | nil => rfl
  | cons m new ih =>
    obtain ⟨n, u⟩ := m
    obtain ⟨hne, hrest⟩ := not_or.mp (mt List.mem_cons.mpr hnew)
    have hkept : name ∈ (set n u ms).map Prod.fst := (mem_keys_set n name u ms).mpr (.inr hname)
    change set name v (update (set n u ms) new) = update (set n u (set name v ms)) new
    rw [ih hkept hrest, set_comm hne hname]

/-- To set a name among the new ones is to set it after them. -/
theorem update_set (hnew : (new.map Prod.fst).Nodup) (ms : List (String × α)) :
    update ms (set name v new) = set name v (update ms new) := by
  induction new generalizing ms with
  | nil => rfl
  | cons m new ih =>
    obtain ⟨n, u⟩ := m
    obtain ⟨hn, hrest⟩ := List.nodup_cons.mp hnew
    by_cases hname : n = name
    · subst hname
      have hthere : n ∈ (set n u ms).map Prod.fst := (mem_keys_set n n u ms).mpr (.inl rfl)
      rw [set, if_pos rfl]
      change update (set n v ms) new = set n v (update (set n u ms) new)
      rw [set_update hthere hn, set_set]
    · rw [set, if_neg hname]
      exact ih hrest _

/-- The new names may be made distinct before they are set. -/
theorem update_ofList (ms new : List (String × α)) : update ms (ofList new) = update ms new := by
  induction new using List.reverseRecOn with
  | nil => rfl
  | append_singleton new m ih =>
    have hlast : ofList (new ++ [m]) = set m.1 m.2 (ofList new) := update_append [] new [m]
    rw [hlast, update_set (ofList_nodup new), ih, update_append]
    rfl

theorem set_of_absent (h : name ∉ ms.map Prod.fst) : set name v ms = ms ++ [(name, v)] := by
  induction ms with
  | nil => rfl
  | cons m ms ih =>
    obtain ⟨hne, hrest⟩ := not_or.mp (mt List.mem_cons.mpr h)
    rw [set, if_neg (Ne.symm hne), ih hrest]
    rfl

theorem ofList_of_nodup (h : (ms.map Prod.fst).Nodup) : ofList ms = ms := by
  induction ms using List.reverseRecOn with
  | nil => rfl
  | append_singleton ms m ih =>
    rw [List.map_append, List.map_singleton] at h
    obtain ⟨hms, -, hapart⟩ := List.nodup_append.mp h
    have hnew : m.1 ∉ ms.map Prod.fst := fun hm => hapart m.1 hm m.1 List.mem_cons_self rfl
    have hlast : ofList (ms ++ [m]) = set m.1 m.2 (ofList ms) := update_append [] ms [m]
    rw [hlast, ih hms, set_of_absent hnew]

end Members

namespace Value

def keyed (ms : List (String × Value)) : List (Value × Value) := ms.map fun m => (.str m.1, m.2)

theorem keyed_set (name : String) (v : Value) (ms : List (String × Value)) :
    keyed (Members.set name v ms) = insertEntry (.str name) v (keyed ms) := by
  induction ms with
  | nil => rfl
  | cons m ms ih =>
    obtain ⟨n, w⟩ := m
    have hsame : (str n).equal (.str name) = true ↔ n = name := by
      rw [equal_str_eq_true_iff]
      simp
    change keyed (if n = name then (n, v) :: ms else (n, w) :: Members.set name v ms) =
      if (str n).equal (.str name) = true then (.str n, v) :: keyed ms
      else (.str n, w) :: insertEntry (.str name) v (keyed ms)
    by_cases hn : n = name
    · rw [if_pos hn, if_pos (hsame.mpr hn)]
      rfl
    · rw [if_neg hn, if_neg (mt hsame.mp hn), ← ih]
      rfl

theorem keyed_update (ms new : List (String × Value)) :
    keyed (Members.update ms new) = insertEntries (keyed ms) (keyed new) := by
  induction new generalizing ms with
  | nil => rfl
  | cons m new ih =>
    change keyed (Members.update (Members.set m.1 m.2 ms) new) =
      insertEntries (insertEntry (.str m.1) m.2 (keyed ms)) (keyed new)
    rw [ih, keyed_set]

theorem distinctEntries_keyed (ms : List (String × Value)) :
    distinctEntries (keyed ms) = keyed (Members.ofList ms) := by
  rw [distinctEntries_eq_insertEntries]
  exact (keyed_update [] ms).symm

inductive StateEntries : Value → List (String × Value) → Prop
  | none : StateEntries .none []
  | dict (ms : List (String × Value)) : StateEntries (.dict (keyed ms)) ms
  | pair {state slots : Value} {ms new : List (String × Value)} (hstate : StateEntries state ms)
      (hslots : StateEntries slots new) : StateEntries (.tuple [state, slots]) (ms ++ new)

end Value

open Process Value

theorem start_setAttributes (typeName : String) (new ms : List (String × Value)) :
    (setAttributes typeName (keyed new)).start ms = (.ok (), Members.update ms new) := by
  induction new generalizing ms with
  | nil => rfl
  | cons m new ih =>
    change (setAttributes typeName ((.str m.1, m.2) :: keyed new)).start ms = _
    rw [setAttributes]
    dsimp only [string?]
    rw [start_bind, start_modify]
    exact ih _

theorem Value.StateEntries.start_mergeState {state : Value} {new : List (String × Value)}
    (h : StateEntries state new) (typeName : String) (ms : List (String × Value)) :
    (mergeState typeName state).start ms = (.ok (), Members.update ms new) := by
  induction h generalizing ms with
  | none =>
    rw [mergeState]
    rfl
  | dict new =>
    rw [mergeState]
    exact start_setAttributes typeName new ms
  | pair _ _ ih ih' =>
    rw [mergeState, start_bind, ih]
    dsimp only
    rw [ih', Members.update_append]

theorem Value.StateEntries.start_restore {state : Value} {new : List (String × Value)}
    (h : StateEntries state new) (typeName : String) (ms : List (String × Value)) (c : Cursor) :
    (Body.restore typeName state).start (.attributes ms, c) =
      (.ok (), .attributes (Members.update ms new), c) := by
  have hmerge : (Body.restore typeName state).start (.attributes ms, c) =
      (((mergeState typeName state).start ms).1,
        .attributes ((mergeState typeName state).start ms).2, c) := rfl
  rw [hmerge, h.start_mergeState]

/-- State after state, each one adds its entries. -/
theorem start_forM_restore {states : List Value} {news : List (List (String × Value))}
    (h : List.Forall₂ StateEntries states news) (typeName : String) (ms : List (String × Value))
    (c : Cursor) :
    (forM states (Body.restore typeName)).start (.attributes ms, c) =
      (.ok (), .attributes (Members.update ms news.flatten), c) := by
  induction h generalizing ms with
  | nil => rfl
  | cons hstate _ ih =>
    rw [List.forM_cons, start_bind, hstate.start_restore]
    dsimp only
    rw [ih, List.flatten_cons, Members.update_append]

/-- Every row of states restores an instance. Its attributes are then what inserting all
entries one by one into a dict gives, behind the attributes that it had: each name once, at
its first place and with its last value. To restore it once, by the entries of all states
made distinct, comes to the same. -/
theorem states_merge_as_update (typeName : String) {attributes : List (String × Value)}
    (hnames : (attributes.map Prod.fst).Nodup) {states : List Value}
    {news : List (List (String × Value))} (h : List.Forall₂ StateEntries states news) (c : Cursor) :
    ∃ after,
      (forM states (Body.restore typeName)).start (.attributes attributes, c) =
        (.ok (), .attributes after, c) ∧
      (after.map Prod.fst).Nodup ∧
      keyed after = insertEntries [] (keyed (attributes ++ news.flatten)) ∧
      keyed after = settle (keyed (attributes ++ news.flatten)) ∧
      (Body.restore typeName (.dict (distinctEntries (keyed news.flatten)))).start
        (.attributes attributes, c) = (.ok (), .attributes after, c) ∧
      (Body.restore typeName (.dict (distinctEntries (keyed (attributes ++ news.flatten))))).start
        (.attributes [], c) = (.ok (), .attributes after, c) := by
  have hafter : Members.update attributes news.flatten =
      Members.ofList (attributes ++ news.flatten) := by
    rw [Members.ofList, Members.update_append]
    change _ = Members.update (Members.ofList attributes) news.flatten
    rw [Members.ofList_of_nodup hnames]
  have hkeyed := keyed_update [] (attributes ++ news.flatten)
  refine ⟨Members.ofList (attributes ++ news.flatten), ?_, Members.ofList_nodup _, hkeyed, ?_, ?_, ?_⟩
  · rw [start_forM_restore h, hafter]
  · rw [← insertEntries_eq_settle]
    exact hkeyed
  · rw [distinctEntries_keyed, (StateEntries.dict _).start_restore, Members.update_ofList, hafter]
  · rw [distinctEntries_keyed, (StateEntries.dict _).start_restore, Members.update_ofList]
    rfl

/-- A pair inside a pair gives a name twice, and another one is set by two states. -/
theorem states_merge_as_update_nested :
    (["C", "tol"] : List String).Nodup ∧
    ∃ after, (forM [.tuple [.tuple [.dict (keyed [("gamma", .int 2), ("C", .int 3)]), .none],
        .dict (keyed [("gamma", .int 4)])], .none, .dict (keyed [("C", .int 5)])]
        (Body.restore "a.E")).start (.attributes [("C", .int 0), ("tol", .int 1)], ⟨0, []⟩) =
          (.ok (), .attributes after, ⟨0, []⟩) ∧
      keyed after = [(.str "C", .int 5), (.str "tol", .int 1), (.str "gamma", .int 4)] := by
  have hnames : (([("C", .int 0), ("tol", .int 1)] : List (String × Value)).map Prod.fst).Nodup := by
    decide
  have h : List.Forall₂ StateEntries
      [.tuple [.tuple [.dict (keyed [("gamma", .int 2), ("C", .int 3)]), .none],
        .dict (keyed [("gamma", .int 4)])], .none, .dict (keyed [("C", .int 5)])]
      [([("gamma", .int 2), ("C", .int 3)] ++ []) ++ [("gamma", .int 4)], [], [("C", .int 5)]] :=
    .cons (.pair (.pair (.dict _) .none) (.dict _)) (.cons .none (.cons (.dict _) .nil))
  obtain ⟨after, hrun, -, -, hsettle, -⟩ := states_merge_as_update "a.E" hnames h ⟨0, []⟩
  refine ⟨hnames, after, hrun, ?_⟩
  rw [hsettle]
  cbv

end PickledModel
