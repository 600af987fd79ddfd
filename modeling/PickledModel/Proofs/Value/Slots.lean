import Std.Data.HashMap.Lemmas
import Std.Data.HashSet.Lemmas
import PickledModel.Proofs.Value.Insertion
import PickledModel.Value.Distinct

/-! Entries made distinct through slots are the entries inserted one by one. A slot is
where an equal key stands first, whether the index or a search finds it, so that entry
is still there when a later value replaces its own. Distinct entries stay as they are,
and nothing but the given keys and values is in the result. -/

set_option autoImplicit false

namespace PickledModel

namespace Leaf

theorem equal_eq_decide {a l : Leaf} (hl : (Value.leaf l).indexKey? = some l) :
    a.equal l = decide (a = l) := by
  have h : a.equal l = (a == l) := by
    cases l with
    | float x => simp [Value.indexKey?] at hl
    | _ => cases a <;> rfl
  rw [h]
  rfl

end Leaf

namespace Value

theorem indexKey?_eq_some {key : Value} {l : Leaf} (h : key.indexKey? = some l) :
    key = .leaf l ∧ (Value.leaf l).indexKey? = some l := by
  cases key with
  | leaf k =>
    cases k with
    | float x => simp [indexKey?] at h
    | _ =>
      obtain rfl := Option.some.inj h
      exact ⟨rfl, rfl⟩
  | sequence kind items => simp [indexKey?] at h
  | dict entries => simp [indexKey?] at h
  | object name body => simp [indexKey?] at h

theorem equal_leaf_eq_true_iff {key : Value} {l : Leaf}
    (hl : (Value.leaf l).indexKey? = some l) :
    key.equal (.leaf l) = true ↔ key = .leaf l := by
  rw [equal_eq]
  cases key with
  | leaf k => simp [sameHead, children, Leaf.equal_eq_decide hl]
  | sequence kind items => simp [sameHead]
  | dict entries => simp [sameHead]
  | object name body => simp [sameHead]

/-- A key that the index does not hold equals none that it holds. -/
theorem equal_leaf_eq_false {key : Value} {l : Leaf} (hk : key.indexKey? = .none)
    (hl : (Value.leaf l).indexKey? = some l) : key.equal (.leaf l) = false := by
  rw [← Bool.not_eq_true, equal_leaf_eq_true_iff hl]
  rintro rfl
  rw [hl] at hk
  cases hk

end Value

section
variable {α β : Type} {f : List α → α → β} {xs : List α} {x : α}

def withBefore (f : List α → α → β) (xs : List α) : List β :=
  xs.zipIdx.map fun (x, i) => f (xs.take i) x

theorem withBefore_append : withBefore f (xs ++ [x]) = withBefore f xs ++ [f xs x] := by
  rw [withBefore, withBefore, List.zipIdx_append, List.map_append]
  congr 1
  · apply List.map_congr_left
    rintro ⟨y, i⟩ hmem
    have hi : i < xs.length := by simpa using (List.mem_zipIdx hmem).2.1
    have htake : (xs ++ [x]).take i = xs.take i :=
      List.take_append_of_le_length (Nat.le_of_lt hi)
    simp only [htake]
  · simp

theorem modify_concat {g : α → α} {i : Nat} (h : i < xs.length) :
    (xs ++ [x]).modify i g = xs.modify i g ++ [x] := by
  induction xs generalizing i with
  | nil => cases h
  | cons y xs ih =>
    cases i with
    | zero => rfl
    | succ i => simp [ih (Nat.lt_of_succ_lt_succ h)]

@[simp] theorem length_withBefore : (withBefore f xs).length = xs.length := by
  simp [withBefore]

end

namespace Value

def slotIn (before : List Value) (key : Value) : Nat := before.findIdx fun k => k.equal key

def keptIn (before : List Value) (item : Value) : Bool := !before.any fun v => v.equal item

end Value

namespace SlotSearch
open Value

structure Reached (s : SlotSearch) (keys : List Value) : Prop where
  before : s.before.toList = keys
  index : ∀ l : Leaf, (Value.leaf l).indexKey? = some l →
    s.index[l]? = keys.findIdx? fun k => k.equal (.leaf l)
  slots : s.slots.toList = withBefore slotIn keys

theorem Reached.next {s : SlotSearch} {keys : List Value} (h : s.Reached keys) (key : Value) :
    (s.next key).Reached (keys ++ [key]) := by
  obtain ⟨hbefore, hindex, hslots⟩ := h
  have hsize : s.before.size = keys.length := by rw [← hbefore, Array.length_toList]
  rw [SlotSearch.next]
  -- a key that the index can hold equals no key that it cannot, so either search is enough
  cases hk : key.indexKey? with
  | some l =>
    obtain ⟨rfl, hl⟩ := indexKey?_eq_some hk
    have hslot : s.index.getD l s.before.size = slotIn keys (.leaf l) := by
      rw [Std.HashMap.getD_eq_getD_getElem?, hindex l hl, hsize, slotIn, List.findIdx_eq_getD_findIdx?]
    constructor
    · rw [Array.toList_push, hbefore]
    · intro l' hl'
      rw [Std.HashMap.getElem?_insertIfNew, List.findIdx?_append, ← hindex l' hl']
      by_cases hsame : l = l'
      · subst hsame
        have hself : (Value.leaf l).equal (.leaf l) = true := (equal_leaf_eq_true_iff hl).mpr rfl
        cases hfound : s.index[l]? with
        | some j =>
          have hmem : l ∈ s.index := Std.HashMap.mem_iff_isSome_getElem?.mpr (by simp [hfound])
          simp [hmem]
        | none =>
          have hmem : l ∉ s.index := by
            rw [Std.HashMap.mem_iff_isSome_getElem?, hfound]
            simp
          simp [hmem, hself, hsize]
      · have hother : (Value.leaf l).equal (.leaf l') = false := by
          rw [← Bool.not_eq_true, equal_leaf_eq_true_iff hl']
          simpa using hsame
        simp [hsame, hother]
    · rw [Array.toList_push, hslots, withBefore_append, hslot]
  | none =>
    have hslot : (s.before.findIdx? fun k => k.equal key).getD s.before.size = slotIn keys key := by
      have hfind := List.findIdx?_toArray (l := s.before.toList) (p := fun k => k.equal key)
      rw [Array.toArray_toList, hbefore] at hfind
      rw [hfind, hsize, slotIn, List.findIdx_eq_getD_findIdx?]
    constructor
    · rw [Array.toList_push, hbefore]
    · intro l hl
      simp [List.findIdx?_append, equal_leaf_eq_false hk hl, hindex l hl]
    · rw [Array.toList_push, hslots, withBefore_append, hslot]

theorem reached (keys : List Value) : (keys.foldl SlotSearch.next .empty).Reached keys := by
  induction keys using List.reverseRecOn with
  | nil => exact ⟨rfl, fun _ _ => by simp [empty], rfl⟩
  | append_singleton keys key ih =>
    rw [List.foldl_append]
    exact ih.next key

end SlotSearch

namespace ItemSearch
open Value

structure Reached (s : ItemSearch) (items : List Value) : Prop where
  before : s.before.toList = items
  seen : ∀ l : Leaf, (Value.leaf l).indexKey? = some l →
    s.seen.contains l = items.any fun v => v.equal (.leaf l)
  keep : s.keep.toList = withBefore keptIn items

theorem Reached.next {s : ItemSearch} {items : List Value} (h : s.Reached items) (item : Value) :
    (s.next item).Reached (items ++ [item]) := by
  obtain ⟨hbefore, hseen, hkeep⟩ := h
  rw [ItemSearch.next]
  cases hk : item.indexKey? with
  | some l =>
    obtain ⟨rfl, hl⟩ := indexKey?_eq_some hk
    constructor
    · rw [Array.toList_push, hbefore]
    · intro l' hl'
      have hsame : (l == l') = (Value.leaf l).equal (.leaf l') := by
        rw [Bool.eq_iff_iff, beq_iff_eq, equal_leaf_eq_true_iff hl']
        simp
      rw [Std.HashSet.contains_insert, hseen l' hl', hsame, List.any_append, Bool.or_comm]
      simp
    · rw [Array.toList_push, hkeep, withBefore_append, hseen l hl, keptIn]
  | none =>
    constructor
    · rw [Array.toList_push, hbefore]
    · intro l hl
      rw [hseen l hl, List.any_append]
      simp [equal_leaf_eq_false hk hl]
    · have hany : s.before.toList.any (fun v => v.equal item) = s.before.any fun v => v.equal item :=
        Array.any_toList
      rw [hbefore] at hany
      rw [Array.toList_push, hkeep, withBefore_append, ← hany, keptIn]

theorem reached (items : List Value) : (items.foldl ItemSearch.next .empty).Reached items := by
  induction items using List.reverseRecOn with
  | nil => exact ⟨rfl, fun _ _ => by simp [empty], rfl⟩
  | append_singleton items item ih =>
    rw [List.foldl_append]
    exact ih.next item

end ItemSearch

namespace Value

variable {entries : List (Value × Value)} {e : Value × Value}

theorem getElem?_settledSlots (i : Nat) :
    (settledSlots entries)[i]? = entries[i]?.map fun f =>
      if (entries.take i).any fun g => g.1.equal f.1 then .none
      else some (f.1, lastValue f (entries.drop (i + 1))) := by
  rw [settledSlots, List.getElem?_map, List.getElem?_zipIdx]
  cases entries[i]? with
  | none => rfl
  | some f => simp

/-- A search for an equal key ends at the entry that still holds its place. -/
theorem findIdx_eq_of_settled {i : Nat} {f : Value × Value} (hf : entries[i]? = some f)
    (hdone : ¬ ((entries.take i).any fun g => g.1.equal f.1) = true)
    (hequal : f.1.equal e.1 = true) : (entries.findIdx fun g => g.1.equal e.1) = i := by
  obtain ⟨hi, rfl⟩ := List.getElem?_eq_some_iff.mp hf
  rw [List.findIdx_eq hi]
  refine ⟨hequal, ?_⟩
  intro j hj
  have hmem : entries[j] ∈ entries.take i :=
    List.mem_take_iff_getElem.mpr ⟨j, Nat.lt_min.mpr ⟨hj, Nat.lt_trans hj hi⟩, rfl⟩
  rw [← Bool.not_eq_true]
  intro hother
  exact hdone (List.any_eq_true.mpr ⟨_, hmem, equal_of_equal_of_equal hother hequal⟩)

/-- The first entry with an equal key still holds its place, and no other one does. -/
theorem modify_settledSlots (e : Value × Value) :
    (settledSlots entries).modify (entries.findIdx fun f => f.1.equal e.1)
        (Option.map fun row => (row.1, e.2)) =
      (settledSlots entries).map (Option.map (takeValue e.1 e.2)) := by
  apply List.ext_getElem?
  intro i
  rw [List.getElem?_modify, List.getElem?_map, getElem?_settledSlots]
  cases hf : entries[i]? with
  | none => rfl
  | some f =>
    simp only [Option.map_some, Option.map_eq_map, Option.some_inj]
    by_cases hdone : ((entries.take i).any fun g => g.1.equal f.1) = true
    · rw [if_pos hdone]
      split <;> rfl
    · rw [if_neg hdone]
      by_cases hplace : entries.findIdx (fun g => g.1.equal e.1) = i
      · subst hplace
        have hequal := List.findIdx_of_getElem?_eq_some hf
        simp [takeValue, hequal]
      · have hother : ¬ f.1.equal e.1 = true :=
          fun hequal => hplace (findIdx_eq_of_settled hf hdone hequal)
        simp [takeValue, hplace, hother]

/-- An entry whose key equals none before it changes nothing there. -/
theorem map_settledSlots (h : ∀ f ∈ entries, f.1.equal e.1 = false) :
    (settledSlots entries).map (Option.map (takeValue e.1 e.2)) = settledSlots entries := by
  rw [settledSlots, List.map_map]
  apply List.map_congr_left
  rintro ⟨f, i⟩ hmem
  have hf : f.1.equal e.1 = false := h f (List.fst_mem_of_mem_zipIdx hmem)
  simp only [Function.comp_apply]
  split
  · rfl
  · simp [takeValue, hf]

theorem fillSlot_settled {out : Array (Option (Value × Value))}
    (hout : out.toList = settledSlots entries) :
    (fillSlot out (e, slotIn (entries.map Prod.fst) e.1)).toList = settledSlots (entries ++ [e]) := by
  have hsize : out.size = entries.length := by
    rw [← Array.length_toList, hout, settledSlots, List.length_map, List.length_zipIdx]
  have hslot : slotIn (entries.map Prod.fst) e.1 = entries.findIdx fun f => f.1.equal e.1 := by
    rw [slotIn, List.findIdx_map]
    rfl
  rw [fillSlot, hslot, hsize, settledSlots_append]
  by_cases hany : entries.findIdx (fun f => f.1.equal e.1) = entries.length
  · have hnone := List.findIdx_eq_length.mp hany
    have hfalse : (entries.any fun f => f.1.equal e.1) = false := by simpa using hnone
    rw [if_pos hany, Array.toList_push, hout, map_settledSlots hnone, hfalse]
    rfl
  · have hlt : entries.findIdx (fun f => f.1.equal e.1) < entries.length :=
      Nat.lt_of_le_of_ne List.findIdx_le_length hany
    have htrue : (entries.any fun f => f.1.equal e.1) = true :=
      List.any_eq_true.mpr (List.findIdx_lt_length.mp hlt)
    have hplace : entries.findIdx (fun f => f.1.equal e.1) < (settledSlots entries).length := by
      rw [← hout, Array.length_toList, hsize]
      exact hlt
    rw [if_neg hany, Array.toList_modify, Array.toList_push, hout, htrue, modify_concat hplace,
      modify_settledSlots]
    rfl

theorem foldl_fillSlot (entries : List (Value × Value)) :
    ((entries.zip (withBefore slotIn (entries.map Prod.fst))).foldl fillSlot #[]).toList =
      settledSlots entries := by
  induction entries using List.reverseRecOn with
  | nil => rfl
  | append_singleton entries e ih =>
    have hlength : entries.length = (withBefore slotIn (entries.map Prod.fst)).length := by simp
    rw [List.map_append, List.map_singleton, withBefore_append, List.zip_append hlength,
      List.foldl_append]
    exact fillSlot_settled ih

/-- Where each key has a slot of its own, no two keys are equal. -/
theorem pairwise_of_slots {keys : List Value}
    (h : withBefore slotIn keys = List.range keys.length) :
    keys.Pairwise fun a b => a.equal b = false := by
  induction keys using List.reverseRecOn with
  | nil => exact .nil
  | append_singleton keys key ih =>
    rw [withBefore_append, List.length_append, List.length_singleton, List.range_succ] at h
    obtain ⟨hkeys, hkey⟩ := List.append_inj' h rfl
    have hnew : ∀ k ∈ keys, k.equal key = false := by
      have hslot : slotIn keys key = keys.length := List.singleton_inj.mp hkey
      simpa using List.findIdx_eq_length.mp hslot
    rw [List.pairwise_append]
    refine ⟨ih hkeys, List.pairwise_singleton _ _, ?_⟩
    intro a ha b hb
    rw [List.mem_singleton.mp hb]
    exact hnew a ha

theorem distinctEntries_eq_insertEntries (entries : List (Value × Value)) :
    distinctEntries entries = insertEntries [] entries := by
  rw [distinctEntries, (SlotSearch.reached _).slots]
  split
  · next h =>
    have hkeys : (entries.map Prod.fst).Pairwise fun a b => a.equal b = false := by
      apply pairwise_of_slots
      rw [h, List.length_map]
    have hentries : DistinctKeys ([] ++ entries) := List.pairwise_map.mp hkeys
    exact (insertEntries_of_distinct hentries).symm
  · rw [foldl_fillSlot, insertEntries_eq_settle, settle]

theorem distinctItems_eq_settleItems (items : List Value) :
    distinctItems items = settleItems items := by
  have hitems : items.zip (withBefore keptIn items) =
      items.zipIdx.map fun p => (p.1, keptIn (items.take p.2) p.1) := by
    conv => lhs; lhs; rw [← List.zipIdx_map_fst 0 items]
    exact List.zip_map'
  rw [distinctItems, (ItemSearch.reached items).keep, hitems, List.filterMap_map, settleItems]
  apply List.filterMap_congr
  rintro ⟨v, i⟩ -
  cases h : (items.take i).any fun w => w.equal v with
  | true => simp [keptIn, h]
  | false => simp [keptIn, h]

theorem distinctItems_eq_map (items : List Value) :
    distinctItems items = (distinctEntries (items.map (·, none))).map Prod.fst := by
  rw [distinctItems_eq_settleItems, distinctEntries_eq_insertEntries, insertEntries_eq_settle,
    map_fst_settle]

theorem distinctEntries_forall {p q : Value → Prop} (entries : List (Value × Value))
    (h : ∀ e ∈ entries, p e.1 ∧ q e.2) : ∀ e ∈ distinctEntries entries, p e.1 ∧ q e.2 := by
  rw [distinctEntries_eq_insertEntries]
  exact insertEntries_forall (by simp) h

theorem distinctItems_subset (items : List Value) : distinctItems items ⊆ items := by
  intro v hv
  rw [distinctItems_eq_map] at hv
  obtain ⟨e, he, rfl⟩ := List.mem_map.mp hv
  refine (distinctEntries_forall (p := (· ∈ items)) (q := fun _ => True) _ ?_ e he).1
  intro e he
  obtain ⟨w, hw, rfl⟩ := List.mem_map.mp he
  exact ⟨hw, trivial⟩

theorem distinctEntries_of_pairwise {entries : List (Value × Value)}
    (h : entries.Pairwise fun a b => a.1.equal b.1 = false) :
    distinctEntries entries = entries := by
  rw [distinctEntries_eq_insertEntries, insertEntries_of_distinct (by simpa using h)]
  rfl

theorem distinctItems_of_pairwise {items : List Value}
    (h : items.Pairwise fun a b => a.equal b = false) : distinctItems items = items := by
  have hp : (items.map (·, none)).Pairwise fun a b => a.1.equal b.1 = false :=
    List.pairwise_map.mpr h
  rw [distinctItems_eq_map, distinctEntries_of_pairwise hp]
  simp [List.map_map, Function.comp_def]

/-- What the keys and the values of entries have, all that lies inside the dict has. -/
theorem forall_mem_entries {α : Type} {q : α → Prop} {entries : List (α × α)}
    (h : ∀ e ∈ entries, q e.1 ∧ q e.2) : ∀ c ∈ entries.flatMap fun (k, v) => [k, v], q c := by
  intro c hc
  obtain ⟨e, he, hce⟩ := List.mem_flatMap.mp hc
  simp only [List.mem_cons, List.not_mem_nil, or_false] at hce
  rcases hce with rfl | rfl
  · exact (h e he).1
  · exact (h e he).2

/-- Made distinct, a value holds nothing that it did not hold before. -/
theorem children_normalize_subset (v : Value) : v.normalize.children ⊆ v.children := by
  intro c hc
  cases v with
  | dict entries =>
    refine forall_mem_entries (distinctEntries_forall entries fun e he => ?_) c hc
    exact ⟨List.mem_flatMap.mpr ⟨e, he, by simp⟩, List.mem_flatMap.mpr ⟨e, he, by simp⟩⟩
  | sequence kind items =>
    cases kind with
    | set => exact distinctItems_subset items hc
    | frozenSet => exact distinctItems_subset items hc
    | list => exact hc
    | tuple => exact hc
  | leaf l => exact hc
  | object name body => exact hc

@[simp] theorem nests_normalize (v : Value) : v.normalize.nests = v.nests := by
  cases v with
  | sequence kind items => cases kind <;> rfl
  | _ => rfl

end Value

end PickledModel
