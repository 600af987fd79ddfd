import PickledModel.Proofs.Sharing.Object
import PickledModel.Proofs.Value.Members

/-! What is read, made and changed through settled references unfolds to what is
read, made and changed through the values they stand for, and it refers to
settled cells again. -/

set_option autoImplicit false

namespace PickledModel

namespace Value

variable {v : Value} (hv : v.nests)
include hv

theorem string?_of_nests : v.string? = .none := by
  cases v <;> first | rfl | cases hv

theorem int64?_of_nests : v.int64? = .none := by
  cases v <;> first | rfl | cases hv

theorem bool?_of_nests : v.bool? = .none := by
  cases v <;> first | rfl | cases hv

theorem bytes?_of_nests : v.bytes? = .none := by
  cases v <;> first | rfl | cases hv

theorem dimension?_of_nests : v.dimension? = .none := by
  rw [dimension?, int64?_of_nests hv]
  rfl

theorem isNone_of_nests : v.isNone = false := by
  cases v <;> first | rfl | cases hv

end Value

namespace Heap

variable {h : Heap} {cells : List Nat} {r : Ref}

namespace Settled

theorem exists_view (hs : h.Settled cells) (hr : r.In cells) :
    ∃ n, h.layer? r = some n ∧ (∀ c ∈ n.children, c.In cells) ∧
      h.tree r = (n.map h.tree).value.normalize := by
  cases r with
  | leaf l => exact ⟨.leaf l, rfl, by simp [Layer.children], tree_eq (.leaf l)⟩
  | cell a => exact hs.exists_layer hr

theorem nests_tree {a : Nat} (hs : h.Settled cells) (ha : Ref.In cells (.cell a)) :
    (h.tree (.cell a)).nests := by
  obtain ⟨n, hn, -, htree⟩ := hs.exists_layer ha
  rw [htree, Value.nests_normalize, Layer.nests_value, Layer.nests_map]
  exact hs.nests a n hn

theorem read_tree {β : Type} {f : Value → Option β} (hs : h.Settled cells) (hr : r.In cells)
    (hf : ∀ v : Value, v.nests → f v = none) : f (h.tree r) = r.read f := by
  cases r with
  | leaf l =>
    rw [tree_eq (.leaf l)]
    rfl
  | cell a => exact hf _ (hs.nests_tree hr)

theorem string?_tree (hs : h.Settled cells) (hr : r.In cells) :
    (h.tree r).string? = r.read Value.string? :=
  hs.read_tree hr fun _ => Value.string?_of_nests

theorem isNone_tree (hs : h.Settled cells) (hr : r.In cells) :
    (h.tree r).isNone = decide (r = .leaf .none) := by
  cases r with
  | leaf l =>
    rw [tree_eq (.leaf l)]
    cases l <;> simp [Value.isNone]
  | cell a => exact Value.isNone_of_nests (hs.nests_tree hr)

theorem items?_tree (hs : h.Settled cells) (hr : r.In cells) :
    (h.tree r).items? = (h.items? r).map (List.map h.tree) := by
  obtain ⟨n, hn, -, htree⟩ := hs.exists_view hr
  rw [htree, items?, hn]
  cases n with
  | sequence kind items => cases kind <;> rfl
  | _ => rfl

theorem items?_in (hs : h.Settled cells) (hr : r.In cells) {items : List Ref}
    (hi : h.items? r = some items) : ∀ i ∈ items, i.In cells := by
  obtain ⟨n, hn, hin, -⟩ := hs.exists_view hr
  rw [items?, hn] at hi
  split at hi
  · next heq =>
    obtain rfl := Option.some.inj heq
    obtain rfl := Option.some.inj hi
    exact hin
  · next heq =>
    obtain rfl := Option.some.inj heq
    obtain rfl := Option.some.inj hi
    exact hin
  · cases hi

theorem descriptor?_tree (hs : h.Settled cells) (hr : r.In cells) :
    (h.tree r).descriptor? = (h.descriptor? r).map (Descriptor.map h.tree) := by
  obtain ⟨n, hn, -, htree⟩ := hs.exists_view hr
  rw [htree, descriptor?, hn]
  cases n with
  | sequence kind items => cases kind <;> rfl
  | object typeName body => cases body <;> rfl
  | _ => rfl

theorem descriptor?_in (hs : h.Settled cells) (hr : r.In cells) {d : Descriptor Ref}
    (hd : h.descriptor? r = some d) : ∀ c ∈ d.children, c.In cells := by
  obtain ⟨n, hn, hin, -⟩ := hs.exists_view hr
  rw [descriptor?, hn] at hd
  split at hd
  · next heq =>
    obtain rfl := Option.some.inj heq
    obtain rfl := Option.some.inj hd
    exact hin
  · cases hd

theorem mapM_map_tree {β : Type} {f : Value → Option β} {g : Ref → Option β} {rs : List Ref}
    (hf : ∀ r ∈ rs, f (h.tree r) = g r) : (rs.map h.tree).mapM f = rs.mapM g := by
  induction rs with
  | nil => rfl
  | cons r rs ih =>
    obtain ⟨hr, hrs⟩ := List.forall_mem_cons.mp hf
    rw [List.map_cons, List.mapM_cons, List.mapM_cons, hr, ih hrs]

theorem shape?_tree (hs : h.Settled cells) (hr : r.In cells) :
    (h.tree r).shape? = h.shape? r := by
  have hshape : (h.tree r).shape? =
      (h.tree r).items?.bind fun items => items.mapM Value.dimension? := rfl
  rw [hshape, hs.items?_tree hr, shape?]
  cases hi : h.items? r with
  | none => rfl
  | some items =>
    have hin := hs.items?_in hr hi
    exact mapM_map_tree fun d hd => hs.read_tree (hin d hd) fun _ => Value.dimension?_of_nests

noncomputable def treeEntries (h : Heap) (entries : List (Ref × Ref)) : List (Value × Value) :=
  entries.map fun e => (h.tree e.1, h.tree e.2)

theorem entries?_in (hs : h.Settled cells) (hr : r.In cells) {entries : List (Ref × Ref)}
    (he : h.entries? r = some entries) : ∀ e ∈ entries, e.1.In cells ∧ e.2.In cells := by
  obtain ⟨n, hn, hin, -⟩ := hs.exists_view hr
  rw [entries?, hn] at he
  split at he
  · next heq =>
    obtain rfl := Option.some.inj heq
    obtain rfl := Option.some.inj he
    intro e hmem
    exact ⟨hin e.1 (List.mem_flatMap.mpr ⟨e, hmem, by simp⟩),
      hin e.2 (List.mem_flatMap.mpr ⟨e, hmem, by simp⟩)⟩
  · cases he

theorem tree_of_entries? (hs : h.Settled cells) (hr : r.In cells) {entries : List (Ref × Ref)}
    (he : h.entries? r = some entries) :
    h.tree r = .dict (Value.distinctEntries (treeEntries h entries)) := by
  obtain ⟨n, hn, -, htree⟩ := hs.exists_view hr
  rw [entries?, hn] at he
  split at he
  · next heq =>
    obtain rfl := Option.some.inj heq
    obtain rfl := Option.some.inj he
    exact htree
  · cases he

theorem exists_entries? (hs : h.Settled cells) (hr : r.In cells)
    (hk : (h.tree r).kind = .dict) : ∃ entries, h.entries? r = some entries := by
  obtain ⟨n, hn, -, htree⟩ := hs.exists_view hr
  rw [htree] at hk
  rw [entries?, hn]
  cases n with
  | leaf l => cases l <;> cases hk
  | sequence kind items => cases kind <;> cases hk
  | dict entries => exact ⟨entries, rfl⟩
  | object typeName body => cases hk

theorem textEntries_treeEntries (hs : h.Settled cells) {entries : List (Ref × Ref)}
    (hin : ∀ e ∈ entries, e.1.In cells ∧ e.2.In cells) :
    Value.textEntries (treeEntries h entries) = Members.mapValues h.tree
      (entries.filterMap fun e => (e.1.read Value.string?).map (·, e.2)) := by
  induction entries with
  | nil => rfl
  | cons e entries ih =>
    obtain ⟨he, hrest⟩ := List.forall_mem_cons.mp hin
    have hcons : treeEntries h (e :: entries) = (h.tree e.1, h.tree e.2) :: treeEntries h entries :=
      rfl
    rw [hcons, Value.textEntries_cons, ih hrest, hs.string?_tree he.1, List.filterMap_cons]
    cases e.1.read Value.string? <;> rfl

theorem textEntries_distinct (hs : h.Settled cells) {entries : List (Ref × Ref)}
    (hin : ∀ e ∈ entries, e.1.In cells ∧ e.2.In cells) :
    Value.textEntries (Value.distinctEntries (treeEntries h entries)) =
      Members.mapValues h.tree (members entries) := by
  rw [Value.textEntries_distinctEntries, hs.textEntries_treeEntries hin, members, Members.ofList,
    Members.ofList, Members.mapValues_update]
  rfl

theorem members_in {entries : List (Ref × Ref)}
    (hin : ∀ e ∈ entries, e.1.In cells ∧ e.2.In cells) :
    ∀ m ∈ members entries, m.2.In cells := by
  apply Members.update_forall (p := Ref.In cells) (by simp)
  intro m hm
  obtain ⟨e, he, hem⟩ := List.mem_filterMap.mp hm
  obtain ⟨s, -, rfl⟩ := Option.map_eq_some_iff.mp hem
  exact (hin e he).2

theorem get?_tree (hs : h.Settled cells) (hr : r.In cells) {entries : List (Ref × Ref)}
    (he : h.entries? r = some entries) (key : String) :
    (h.tree r).get? key = (Members.get? key (members entries)).map h.tree := by
  rw [hs.tree_of_entries? hr he, Value.get?_eq, hs.textEntries_distinct (hs.entries?_in hr he),
    Members.get?_mapValues]

theorem getD_tree (hs : h.Settled cells) (hr : r.In cells) {entries : List (Ref × Ref)}
    (he : h.entries? r = some entries) (key : String) :
    ((h.tree r).get? key).getD .none =
      h.tree ((Members.get? key (members entries)).getD (.leaf .none)) := by
  rw [hs.get?_tree hr he]
  cases Members.get? key (members entries) with
  | none => exact (tree_eq (.leaf .none)).symm
  | some r => rfl

end Settled

end Heap

end PickledModel
