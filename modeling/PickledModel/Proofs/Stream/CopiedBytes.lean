import PickledModel.Proofs.Stream.CopyBudget
import PickledModel.Proofs.Stream.Reaching

/-! The bytes that copies take against those that they are charged for. An object
is charged for 512 bytes beside its type name, whatever its body owns: names of
attributes, the order of an array and its dimensions are not charged. -/

set_option autoImplicit false

namespace PickledModel

theorem sum_ownedSize_le {limit : Nat} {vs : List Value} (hcosts : costs vs ≤ limit)
    (hword : ∀ v ∈ vs, v.size ≤ Value.largestSize) :
    (vs.map Value.ownedSize).sum + 512 * (vs.map Value.objectCount).sum ≤
      limit + (vs.map Value.uncharged).sum := by
  have hsum : costs vs + (vs.map Value.uncharged).sum =
      (vs.map Value.ownedSize).sum + 512 * (vs.map Value.objectCount).sum := by
    clear hcosts
    induction vs with
    | nil => rfl
    | cons v vs ih =>
      obtain ⟨hv, hvs⟩ := List.forall_mem_cons.mp hword
      have hone := v.size_add_uncharged
      have hcost : v.cost = v.size := Nat.min_eq_left hv
      have hrest := ih hvs
      simp only [costs_cons, List.map_cons, List.sum_cons]
      omega
  omega

namespace Machine

/-- A copy is charged what it takes and 512 bytes for each object in it, less what
the bodies of its objects own. So it is charged for what it takes just if those
come to no more than the 512 bytes; and over loads in a row, where the limit is not cut to
a word, the copies take no more than the limit and what was left out of their charges. -/
theorem copied_bytes_account (data : Bytes) (rs : List Registry) :
    (∀ (v : Value) (limit charged : Nat), v.footprint? limit = some charged →
      charged = min v.size Value.largestSize ∧
      v.size + v.uncharged = v.ownedSize + 512 * v.objectCount ∧
      (v.size ≤ Value.largestSize →
        (v.ownedSize ≤ charged ↔ v.uncharged ≤ 512 * v.objectCount))) ∧
    (128 * data.length < 2 ^ 64 →
      (((ofBytes data).copiesOf rs).map Value.ownedSize).sum +
          512 * (((ofBytes data).copiesOf rs).map Value.objectCount).sum ≤
        copyLimitFor data.length + (((ofBytes data).copiesOf rs).map Value.uncharged).sum) := by
  constructor
  · intro v limit charged h
    obtain ⟨hcharged, -⟩ := Value.footprint?_eq_some_iff.mp h
    have hsize := v.size_add_uncharged
    refine ⟨hcharged, hsize, fun hword => ?_⟩
    have hcost : v.cost = v.size := Nat.min_eq_left hword
    omega
  · intro hlength
    have hallowance := (loaded_account (ofBytes data) rs).2
    change _ = copyLimitFor data.length at hallowance
    apply sum_ownedSize_le (by omega)
    intro v hv
    obtain ⟨m, hm, -, hcost⟩ := mem_copiesOf .ofBytes hv
    have hlimit : copyLimitFor data.length < Value.largestSize := by
      rw [copyLimitFor, Value.largestSize]
      omega
    have hle := hm.paid.2.1
    rw [Value.cost] at hcost
    omega

def dimensioned : Value := .object "numpy.core.multiarray._reconstruct"
  (.array ⟨.inlined, .none, none, List.replicate 65 1, none, none, none, []⟩)

theorem dimensioned_sizes : dimensioned.size = 610 ∧ dimensioned.ownedSize = 618 := by
  have hchildren : dimensioned.children = [.none] := rfl
  have hnone : Value.none.children = [] := rfl
  simp only [Value.size, Value.ownedSize, Value.total_eq, hchildren, hnone, List.map_cons,
    List.map_nil, List.sum_cons, List.sum_nil]
  decide

theorem footprint?_dimensioned (length : Nat) :
    dimensioned.footprint? (copyLimitFor length) = some 610 := by
  have hlimit : 610 ≤ copyLimitFor length := by
    rw [copyLimitFor]
    omega
  rw [Value.footprint?_eq_some_iff, Value.cost, dimensioned_sizes.1]
  exact ⟨rfl, hlimit⟩

/-- The body of this array owns more than 512 bytes; a list that is copied once owns none. -/
theorem copied_bytes_account_dimensioned :
    dimensioned.footprint? (copyLimitFor 0) = some 610 ∧
      ¬ dimensioned.uncharged ≤ 512 * dimensioned.objectCount ∧
      (ofBytes [0x5d, 0x32, 0x86, 0x2e]).copiesOf [.empty] = [.list []] ∧
      (Value.list []).ownedSize ≤ copyLimitFor 4 + (Value.list []).uncharged := by
  have hcharged := footprint?_dimensioned 0
  obtain ⟨-, -, hiff⟩ := (copied_bytes_account [] []).1 _ _ _ hcharged
  have hword : dimensioned.size ≤ Value.largestSize := by
    rw [dimensioned_sizes.1]
    decide
  have hbody : ¬ dimensioned.uncharged ≤ 512 * dimensioned.objectCount := by
    intro h
    have hle := (hiff hword).mpr h
    rw [dimensioned_sizes.2] at hle
    omega
  have hcopies : (ofBytes [0x5d, 0x32, 0x86, 0x2e]).copiesOf [.empty] = [.list []] := by cbv
  have hlist := (copied_bytes_account [0x5d, 0x32, 0x86, 0x2e] [.empty]).2 (by decide)
  rw [hcopies] at hlist
  change _ ≤ copyLimitFor 4 + _ at hlist
  simp only [List.map_cons, List.map_nil, List.sum_cons, List.sum_nil] at hlist
  exact ⟨hcharged, hbody, hcopies, by omega⟩

theorem reconstruct_fits :
    (∀ c ∈ "numpy.core.multiarray".toList, c.toNat < 256 ∧ c ≠ '\n') ∧
      ∀ c ∈ "_reconstruct".toList, c.toNat < 256 ∧ c ≠ '\n' := by
  constructor <;> simp

/-- Arguments that name a shape of any length nest one level. -/
theorem shapeArgs_fit {l : Leaf} (hl : l.Plain) (n : Nat) :
    ∀ v ∈ [Value.none, .tuple (List.replicate n (.leaf l))], v.Plain ∧ v.nesting ≤ 1 := by
  rw [List.forall_mem_cons, List.forall_mem_singleton, Value.nesting_leaf]
  refine ⟨⟨.leaf trivial, Nat.zero_le 1⟩, .tuple fun v hv => ?_, ?_⟩
  · rw [List.eq_of_mem_replicate hv]
    exact .leaf hl
  · apply Value.nesting_le_succ_iff.mpr
    intro v hv
    rw [List.eq_of_mem_replicate hv]
    exact Nat.le_of_eq (Value.nesting_leaf _)

/-- A stream may put a value on the stack whose copy takes more than it is charged for. -/
theorem copy_exceeds_charge :
    ∃ m h, Reachable (callStream "numpy.core.multiarray".toList "_reconstruct".toList
        [.none, .tuple (List.replicate 65 (.bool true))]) m ∧
      m.stack = [.owned h] ∧ h.value.footprint? m.copyLimit = some 610 ∧
      h.value.ownedSize = 618 := by
  have hcall : Call.run .standard
      (String.ofList ("numpy.core.multiarray".toList ++ '.' :: "_reconstruct".toList))
      [.none, .tuple (List.replicate 65 (.bool true))] = .ok ⟨dimensioned, none⟩ := rfl
  have hargs := shapeArgs_fit (l := .bool true) trivial 65
  obtain ⟨m, h, hm, hs, hh⟩ := callStream_reaches reconstruct_fits.1 reconstruct_fits.2
    (fun v hv => (hargs v hv).1) (fun v hv => Nat.lt_of_le_of_lt (hargs v hv).2 (by decide)) hcall
  refine ⟨m, h, hm, hs, ?_, ?_⟩
  · rw [hh, hm.paid.1]
    exact footprint?_dimensioned _
  · rw [hh, dimensioned_sizes.2]

end Machine

end PickledModel
