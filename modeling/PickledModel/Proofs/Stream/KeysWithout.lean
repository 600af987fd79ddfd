import PickledModel.Proofs.Stream.UnknownType
import PickledModel.Proofs.Stream.Uppermost

/-! Streams in which no object of one type becomes part of a key. Whether that is so shows
on the values that the instructions leave uppermost. The keys stay apart then, whatever is
left out of the objects. -/

set_option autoImplicit false

namespace PickledModel

theorem Layer.map_id (l : Layer Value) : l.map id = l := by
  cases l with
  | leaf l => rfl
  | sequence kind items => exact congrArg (sequence kind) (List.map_id items)
  | dict entries => exact congrArg dict (List.map_id entries)
  | object name body => exact congrArg (object name) body.map_id

namespace Value

def isOf (n : String) : Value → Nat
  | .object name _ => if name = n then 1 else 0
  | _ => 0

def objectsOf (n : String) (v : Value) : Nat := v.total (isOf n)

def keysLack (n : String) (v : Value) : Bool := v.keys.all fun key => key.objectsOf n == 0

variable {n : String} {v : Value}

theorem objectsOf_eq_zero_iff :
    v.objectsOf n = 0 ↔ v.isOf n = 0 ∧ ∀ c ∈ v.children, c.objectsOf n = 0 := by
  rw [objectsOf, total_eq, Nat.add_eq_zero_iff, List.sum_eq_zero_iff, List.forall_mem_map]
  rfl

/-- Without objects of the type there is nothing to empty. -/
theorem erase_of_objectsOf (h : v.objectsOf n = 0) : v.erase n = v := by
  induction v using childInduction with
  | step v ih =>
    obtain ⟨hother, hinside⟩ := objectsOf_eq_zero_iff.mp h
    have hlayer : (Layer.ofValue v).erase n = Layer.ofValue v := by
      cases v with
      | object name body =>
        have hname : name ≠ n := fun hname => Nat.one_ne_zero ((if_pos hname).symm.trans hother)
        rw [Layer.ofValue, Layer.erase, if_neg hname]
      | _ => rfl
    have hmap : (Layer.ofValue v).map (erase n) = (Layer.ofValue v).map id := by
      apply Layer.map_congr
      intro c hc
      rw [Layer.children_ofValue] at hc
      exact ih c hc (hinside c hc)
    rw [erase_eq, hlayer, hmap, Layer.map_id, Layer.value_ofValue]

theorem keys_normalize_subset (v : Value) : v.normalize.keys ⊆ v.keys := by
  intro key hkey
  cases v with
  | dict entries =>
    obtain ⟨e, he, rfl⟩ := List.mem_map.mp hkey
    exact (distinctEntries_forall (p := (· ∈ entries.map Prod.fst)) (q := fun _ => True) entries
      (fun e he => ⟨List.mem_map_of_mem he, trivial⟩) e he).1
  | sequence kind items =>
    cases kind with
    | set | frozenSet => exact distinctItems_subset items hkey
    | list | tuple => exact hkey
  | leaf l => exact hkey
  | object name body => exact hkey

theorem keysApart_of_keysLack (h : v.keysLack n = true) : v.KeysApart n := by
  have hlack : ∀ key ∈ v.normalize.keys, key.erase n = key := by
    intro key hkey
    have hnone := List.all_eq_true.mp h key (v.keys_normalize_subset hkey)
    exact erase_of_objectsOf (beq_iff_eq.mp hnone)
  apply v.keys_normalize.imp_of_mem
  intro a b ha hb hab
  rw [hlack a ha, hlack b hb]
  exact hab.1

end Value

namespace Machine

/-- If no object of the type is inside a key or an item of a set, the stream loads where the
type is not known, too, and gives the same value but for these objects. -/
theorem load_erases_of_checked {data : Bytes} {r : Registry} {n : String} {v : Value}
    {m : Machine} (hn : r.resolve? n = none)
    (h : (ofBytes data).load (r.register n .attributes) = (.ok v, m))
    (hcheck : (ofBytes data).checked (Value.keysLack n) (r.register n .attributes) = true) :
    ∃ m', (ofBytes data).load r = (.ok (v.erase n), m') ∧
      m'.cursor.position = m.cursor.position := by
  apply load_erases hn h
  intro j mj hj
  have hsize := after?_size_le hj
  have hholds : mj.Holds fun h => h.value.keysLack n = true :=
    after?_holds_of_checked (ofBytes_holds _ data) (by omega) hcheck hj
  exact hholds.imp fun _ => Value.keysApart_of_keysLack

-- a dict with a number as its key and an object of the type as its value
example : (ofBytes [0x7d, 0x4b, 0x01, 0x28, 0x69, 0x61, 0x0a, 0x42, 0x0a, 0x73, 0x2e]).checked
    (Value.keysLack "a.B") (Registry.empty.register "a.B" .attributes) = true := by
  have hone : (Value.int 1).objectsOf "a.B" = 0 := by
    rw [Value.objectsOf_eq_zero_iff]
    exact ⟨rfl, List.forall_mem_nil _⟩
  change (((Value.int 1).objectsOf "a.B" == 0 && true) && true) = true
  rw [hone]
  rfl

end Machine

end PickledModel
