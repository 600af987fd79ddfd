import PickledModel.Proofs.Sharing.HeapMachine

/-! Slots that hold values against references to cells. An owned slot has its
cell to itself, a memo index has its cell to itself, and no cell that went into
another value is written again. So a copy of a value, taken at any time after,
is what the references to its cell unfold to at the end. -/

set_option autoImplicit false

namespace PickledModel

abbrev Bound := Std.TreeMap Nat Ref

def Faces (heap : Heap) (bound : Bound) : Slot × Ref → Prop
  | (.owned h, r) => Unfolds heap r h.value.normalize
  | (.memo k, r) => bound[k]? = some r

def ownCell? : Slot × Ref → Option Nat
  | (.owned _, r) => r.address?
  | (.memo _, _) => none

structure Faithful (memo : Memo) (bound : Bound) (heap : Heap) (popped : List Nat)
    (pairs : List (Slot × Ref)) : Prop where
  settled : heap.Settled popped
  faces : ∀ p ∈ pairs, Faces heap bound p
  memo : ∀ k : Nat, Option.Rel (fun h r => Unfolds heap r h.value.normalize) memo[k]? bound[k]?
  distinct : (pairs.filterMap ownCell?).Nodup
  apart : ∀ a ∈ pairs.filterMap ownCell?, ∀ k : Nat, bound[k]? ≠ some (.cell a)
  once : ∀ (j k a : Nat), bound[j]? = some (.cell a) → bound[k]? = some (.cell a) → j = k

theorem Unfolds.exists_layer {h : Heap} {a : Nat} {u : Value} (hu : Unfolds h (.cell a) u) :
    ∃ n, h[a]? = some n := by
  cases hu with
  | cell hn _ => exact ⟨_, hn⟩

theorem Unfolds.address_lt {h : Heap} {a : Nat} {u : Value} (hu : Unfolds h (.cell a) u) :
    a < h.length := by
  obtain ⟨n, hn⟩ := hu.exists_layer
  exact (List.getElem?_eq_some_iff.mp hn).1

namespace Faithful

variable {memo : Memo} {bound : Bound} {heap : Heap} {popped : List Nat}
  {pairs pairs' : List (Slot × Ref)}

theorem sublist (hf : Faithful memo bound heap popped pairs) (hp : List.Sublist pairs' pairs) :
    Faithful memo bound heap popped pairs' where
  settled := hf.settled
  faces p hm := hf.faces p (hp.subset hm)
  memo := hf.memo
  distinct := hf.distinct.sublist (hp.filterMap ownCell?)
  apart a ha := hf.apart a ((hp.filterMap ownCell?).subset ha)
  once := hf.once

theorem bound_unfolds (hf : Faithful memo bound heap popped pairs) {k : Nat} {r : Ref}
    (hr : bound[k]? = some r) :
    ∃ h, memo[k]? = some h ∧ Unfolds heap r h.value.normalize := by
  have hk := hf.memo k
  rw [hr] at hk
  cases hm : memo[k]? with
  | none =>
    rw [hm] at hk
    cases hk
  | some h =>
    rw [hm] at hk
    cases hk with
    | some hu => exact ⟨h, rfl, hu⟩

theorem note (hf : Faithful memo bound heap popped pairs) {rs : List Ref}
    (hr : ∀ r ∈ rs, ∃ u, Unfolds heap r u) :
    Faithful memo bound heap (rs.filterMap Ref.address? ++ popped) pairs :=
  { hf with settled := hf.settled.settle hr }

theorem pushLeaf (hf : Faithful memo bound heap popped pairs) {l : Leaf} {v : Value} (d : Nat)
    (hv : v.normalize = .leaf l) :
    Faithful memo bound heap popped ((.owned ⟨v, d⟩, .leaf l) :: pairs) := by
  have hface : Unfolds heap (.leaf l) v.normalize := by
    rw [hv]
    exact .leaf l
  exact { hf with faces := List.forall_mem_cons.mpr ⟨hface, hf.faces⟩ }

/-- A new cell is in nobody's way. -/
theorem pushCell (hf : Faithful memo bound heap popped pairs) {n : Layer Ref} (hnests : n.nests)
    (hin : ∀ c ∈ n.children, c.In popped) {v : Value} (d : Nat)
    (hv : v.normalize = (n.map heap.tree).value.normalize) :
    Faithful memo bound (heap ++ [n]) popped
      ((.owned ⟨v, d⟩, .cell heap.length) :: pairs) := by
  have hnew : Unfolds (heap ++ [n]) (.cell heap.length) v.normalize := by
    rw [hv]
    exact .cell List.getElem?_concat_length fun c hc =>
      (hf.settled.unfolds_tree (hin c hc)).append n
  have hfresh : heap.length ∉ pairs.filterMap ownCell? := by
    intro hmem
    obtain ⟨⟨s, r⟩, hp, ha⟩ := List.mem_filterMap.mp hmem
    have hface := hf.faces _ hp
    cases s with
    | memo k => cases ha
    | owned h =>
      cases r with
      | leaf l => cases ha
      | cell a =>
        obtain rfl := Option.some.inj ha
        have hlt := Unfolds.address_lt hface
        omega
  refine ⟨hf.settled.append hnests hin, ?_, ?_, ?_, ?_, hf.once⟩
  · refine List.forall_mem_cons.mpr ⟨hnew, ?_⟩
    rintro ⟨s, r⟩ hp
    have hface := hf.faces _ hp
    cases s with
    | owned h => exact Unfolds.append hface n
    | memo k => exact hface
  · intro k
    have hk := hf.memo k
    generalize memo[k]? = x at hk
    generalize bound[k]? = y at hk
    cases hk with
    | some hu => exact .some (hu.append n)
    | none => exact .none
  · exact List.nodup_cons.mpr ⟨hfresh, hf.distinct⟩
  · intro a ha k hk
    rcases List.mem_cons.mp ha with rfl | ha
    · obtain ⟨h, -, hu⟩ := hf.bound_unfolds hk
      have hlt := hu.address_lt
      omega
    · exact hf.apart a ha k hk

theorem get (hf : Faithful memo bound heap popped pairs) {k : Nat} {r : Ref}
    (hr : bound[k]? = some r) : Faithful memo bound heap popped ((.memo k, r) :: pairs) :=
  { hf with faces := List.forall_mem_cons.mpr ⟨hr, hf.faces⟩ }

theorem faces_change (hf : Faithful memo bound heap popped pairs) {heap' : Heap} {r : Ref}
    (hold : ∀ q u, (∀ a, r = .cell a → q ≠ .cell a) → Unfolds heap q u → Unfolds heap' q u)
    (hapart : ∀ a, r = .cell a → a ∉ pairs.filterMap ownCell?) :
    ∀ p ∈ pairs, Faces heap' bound p := by
  rintro ⟨s, q⟩ hp
  have hface := hf.faces _ hp
  cases s with
  | memo k => exact hface
  | owned h =>
    apply hold q _ _ hface
    rintro a hra rfl
    exact hapart a hra (List.mem_filterMap.mpr ⟨_, hp, rfl⟩)

theorem memo_change (hf : Faithful memo bound heap popped pairs) {heap' : Heap} {r : Ref}
    (hold : ∀ q u, (∀ a, r = .cell a → q ≠ .cell a) → Unfolds heap q u → Unfolds heap' q u)
    {k : Nat} (hapart : ∀ a, r = .cell a → bound[k]? ≠ some (.cell a)) :
    Option.Rel (fun h q => Unfolds heap' q h.value.normalize) memo[k]? bound[k]? := by
  have hk := hf.memo k
  generalize memo[k]? = x at hk
  generalize bound[k]? = y at hk hapart
  cases hk with
  | none => exact .none
  | some hu =>
    refine .some (hold _ _ ?_ hu)
    rintro a hra rfl
    exact hapart a hra rfl

/-- A change of the heap at the cell of the uppermost slot, which owns it. -/
theorem changeOwned {h : Held} {r : Ref}
    (hf : Faithful memo bound heap popped ((.owned h, r) :: pairs)) {heap' : Heap} {g : Held}
    (hs : heap'.Settled popped) (hnew : Unfolds heap' r g.value.normalize)
    (hold : ∀ q u, (∀ a, r = .cell a → q ≠ .cell a) → Unfolds heap q u → Unfolds heap' q u) :
    Faithful memo bound heap' popped ((.owned g, r) :: pairs) := by
  have hrest := hf.sublist (List.sublist_cons_self _ _)
  refine ⟨hs, List.forall_mem_cons.mpr ⟨hnew, hrest.faces_change hold ?_⟩, ?_, hf.distinct,
    hf.apart, hf.once⟩
  · rintro a rfl
    have hnodup := hf.distinct
    simp only [List.filterMap_cons, ownCell?, Ref.address?, List.nodup_cons] at hnodup
    exact hnodup.1
  · intro k
    apply hf.memo_change hold
    rintro a rfl
    exact hf.apart a (by simp [ownCell?, Ref.address?]) k

/-- A change of the heap at the cell of the uppermost slot, which is in the memo. -/
theorem changeMemo {k : Nat} {r : Ref}
    (hf : Faithful memo bound heap popped ((.memo k, r) :: pairs)) {heap' : Heap} {g : Held}
    (hs : heap'.Settled popped) (hnew : Unfolds heap' r g.value.normalize)
    (hold : ∀ q u, (∀ a, r = .cell a → q ≠ .cell a) → Unfolds heap q u → Unfolds heap' q u) :
    Faithful (memo.insert k g) bound heap' popped ((.memo k, r) :: pairs) := by
  have hr : bound[k]? = some r := (List.forall_mem_cons.mp hf.faces).1
  have hrest := hf.sublist (List.sublist_cons_self _ _)
  refine ⟨hs, List.forall_mem_cons.mpr ⟨hr, hrest.faces_change hold ?_⟩, ?_, hf.distinct,
    hf.apart, hf.once⟩
  · rintro a rfl hmem
    exact hrest.apart a hmem k hr
  · intro j
    by_cases hj : j = k
    · subst hj
      rw [hr, Std.TreeMap.getElem?_insert_self]
      exact .some hnew
    · rw [Std.TreeMap.getElem?_insert, if_neg (by simpa using Ne.symm hj)]
      apply hf.memo_change hold
      rintro a rfl hb
      exact hj (hf.once j k a hb hr)

/-- Binding an unbound index hands over the cell of an owned slot to the memo. -/
theorem bind {h : Held} {r : Ref} (hf : Faithful memo bound heap popped ((.owned h, r) :: pairs))
    {k : Nat} (hk : memo[k]? = none) :
    Faithful (memo.insert k h) (bound.insert k r) heap popped ((.memo k, r) :: pairs) := by
  obtain ⟨htop, hrest⟩ := List.forall_mem_cons.mp hf.faces
  have hfree : bound[k]? = none := by
    cases hb : bound[k]? with
    | none => rfl
    | some q =>
      obtain ⟨g, hg, -⟩ := hf.bound_unfolds hb
      rw [hk] at hg
      cases hg
  have hself : (bound.insert k r)[k]? = some r := Std.TreeMap.getElem?_insert_self
  have hother : ∀ j, j ≠ k → (bound.insert k r)[j]? = bound[j]? := by
    intro j hj
    rw [Std.TreeMap.getElem?_insert, if_neg]
    simpa using hj.symm
  have hapart : ∀ a, r = .cell a → ∀ j : Nat, bound[j]? ≠ some (.cell a) := by
    rintro a rfl j
    exact hf.apart a (by simp [ownCell?, Ref.address?]) j
  have hsub : List.Sublist (pairs.filterMap ownCell?)
      (((Slot.owned h, r) :: pairs).filterMap ownCell?) :=
    (List.sublist_cons_self _ _).filterMap ownCell?
  -- away from `k` nothing changes, and at `k` stands the cell that the slot had to itself
  refine ⟨hf.settled, ?_, ?_, hf.distinct.sublist hsub, ?_, ?_⟩
  · refine List.forall_mem_cons.mpr ⟨hself, ?_⟩
    rintro ⟨s, q⟩ hp
    have hface := hrest _ hp
    cases s with
    | owned g => exact hface
    | memo j =>
      have hne : j ≠ k := by
        rintro rfl
        have hj : bound[j]? = some q := hface
        rw [hfree] at hj
        cases hj
      exact (hother j hne).trans hface
  · intro j
    by_cases hj : j = k
    · subst hj
      rw [hself, Std.TreeMap.getElem?_insert_self]
      exact .some htop
    · rw [hother j hj, Std.TreeMap.getElem?_insert, if_neg (by simpa using Ne.symm hj)]
      exact hf.memo j
  · intro a ha j hj
    by_cases hjk : j = k
    · subst hjk
      rw [hself] at hj
      obtain rfl := Option.some.inj hj
      have hnodup := hf.distinct
      simp only [List.filterMap_cons, ownCell?, Ref.address?, List.nodup_cons] at hnodup
      exact hnodup.1 ha
    · rw [hother j hjk] at hj
      exact hf.apart a (hsub.subset ha) j hj
  · intro i j a hi hj
    by_cases hik : i = k <;> by_cases hjk : j = k
    · rw [hik, hjk]
    · subst hik
      rw [hself] at hi
      rw [hother j hjk] at hj
      exact absurd hj (hapart a (Option.some.inj hi) j)
    · subst hjk
      rw [hself] at hj
      rw [hother i hik] at hi
      exact absurd hi (hapart a (Option.some.inj hj) i)
    · rw [hother i hik] at hi
      rw [hother j hjk] at hj
      exact hf.once i j a hi hj

end Faithful

end PickledModel
