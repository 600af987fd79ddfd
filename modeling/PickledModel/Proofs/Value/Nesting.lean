import PickledModel.Proofs.Object.Contents

/-! The nesting of a value: a leaf is at level zero, and a container or object
one level above the deepest value inside it. A bound on it passes to the values
inside, and making a value distinct does not raise it. -/

set_option autoImplicit false

namespace PickledModel

theorem foldl_max_le_iff {ns : List Nat} {start n : Nat} :
    ns.foldl max start ≤ n ↔ start ≤ n ∧ ∀ m ∈ ns, m ≤ n := by
  induction ns generalizing start with
  | nil => simp
  | cons m ns ih =>
    rw [List.foldl_cons, ih, List.forall_mem_cons, Nat.max_le, and_assoc]

namespace Value

def nesting (v : Value) : Nat :=
  if v.nests then (v.children.attach.map fun ⟨c, _⟩ => nesting c).foldl max 0 + 1 else 0
termination_by sizeOf v
decreasing_by exact sizeOf_lt_of_mem_children ‹_›

theorem nesting_eq (v : Value) :
    v.nesting = if v.nests then (v.children.map nesting).foldl max 0 + 1 else 0 := by
  rw [nesting]
  congr 3
  conv => rhs; rw [← List.attach_map_subtype_val v.children, List.map_map]
  rfl

theorem children_eq_nil_of_not_nests {v : Value} (h : v.nests = false) : v.children = [] := by
  cases v with
  | leaf l => rfl
  | _ => cases h

theorem nesting_le_succ_iff {v : Value} {n : Nat} :
    v.nesting ≤ n + 1 ↔ ∀ c ∈ v.children, c.nesting ≤ n := by
  rw [nesting_eq]
  cases h : v.nests with
  | false => simp [children_eq_nil_of_not_nests h]
  | true =>
    rw [if_pos rfl, Nat.add_le_add_iff_right, foldl_max_le_iff]
    simp

theorem nesting_leaf (l : Leaf) : (leaf l).nesting = 0 := by
  rw [nesting_eq]
  rfl

theorem nesting_lt_of_mem {v c : Value} (hc : c ∈ v.children) : c.nesting < v.nesting := by
  cases hv : v.nesting with
  | zero =>
    have hn : v.nests = false := by
      rw [nesting_eq] at hv
      cases h : v.nests with
      | false => rfl
      | true => simp [h] at hv
    rw [children_eq_nil_of_not_nests hn] at hc
    cases hc
  | succ n => exact Nat.lt_succ_of_le (nesting_le_succ_iff.mp (Nat.le_of_eq hv) c hc)

theorem nesting_normalize_le (v : Value) : v.normalize.nesting ≤ v.nesting := by
  cases hv : v.nests with
  | false =>
    rw [nesting_eq v.normalize, nests_normalize, hv]
    exact Nat.zero_le _
  | true =>
    obtain ⟨n, hn⟩ : ∃ n, v.nesting = n + 1 := ⟨_, by rw [nesting_eq, if_pos hv]⟩
    rw [hn, nesting_le_succ_iff]
    intro c hc
    exact nesting_le_succ_iff.mp (Nat.le_of_eq hn) c (children_normalize_subset v hc)

theorem hereditary_nesting_le (n : Nat) : Hereditary fun v => v.nesting ≤ n where
  none := by
    rw [nesting_leaf]
    exact Nat.zero_le n
  child v hv c hc := Nat.le_of_lt (Nat.lt_of_lt_of_le (nesting_lt_of_mem hc) hv)

end Value

end PickledModel
