import PickledModel.Proofs.Value.Slots

/-! Values with shared parts: containers and objects are cells of a heap, and
what is inside a cell are leaves and references to cells. A reference unfolds
to the tree of the value it stands for, dicts and sets made distinct. A cell
whose references are to settled cells unfolds, and writing it leaves all that
does not refer to it as it was. -/

set_option autoImplicit false

namespace PickledModel

namespace Body

variable {α β γ : Type}

theorem map_congr {f g : α → β} {b : Body α} (h : ∀ c ∈ b.children, f c = g c) :
    b.map f = b.map g := by
  cases b with
  | descriptor d =>
    obtain ⟨t, align, copy, _ | s⟩ := d
    · simp_all [children, Descriptor.children, map, Descriptor.map]
    · simp_all [children, Descriptor.children, DescriptorState.children, map, Descriptor.map,
        DescriptorState.map]
  | array a =>
    obtain ⟨layout, subtype, _ | ⟨t, align, copy, _ | s⟩, shape, order, mmap, version, data⟩ := a
    · simp_all [children, ArrayBody.children, map, ArrayBody.map]
    · simp_all [children, ArrayBody.children, Descriptor.children, map, ArrayBody.map,
        Descriptor.map]
    · simp_all [children, ArrayBody.children, Descriptor.children, DescriptorState.children, map,
        ArrayBody.map, Descriptor.map, DescriptorState.map]
  | tree t => simp_all [children, TreeBody.children, map, TreeBody.map]
  | attributes entries =>
    simp only [map, attributes.injEq]
    apply List.map_congr_left
    intro e he
    rw [h e.2 (List.mem_map_of_mem he)]
  | unresolved => rfl

end Body

inductive Layer (α : Type) where
  | leaf (l : Leaf)
  | sequence (kind : SequenceKind) (items : List α)
  | dict (entries : List (α × α))
  | object (typeName : String) (body : Body α)

namespace Layer

variable {α β : Type}

def children : Layer α → List α
  | .leaf _ => []
  | .sequence _ items => items
  | .dict entries => entries.flatMap fun (k, v) => [k, v]
  | .object _ body => body.children

def nests : Layer α → Bool
  | .leaf _ => false
  | _ => true

def map (f : α → β) : Layer α → Layer β
  | .leaf l => .leaf l
  | .sequence kind items => .sequence kind (items.map f)
  | .dict entries => .dict (entries.map fun (k, v) => (f k, f v))
  | .object typeName body => .object typeName (body.map f)

def value : Layer Value → Value
  | .leaf l => .leaf l
  | .sequence kind items => .sequence kind items
  | .dict entries => .dict entries
  | .object typeName body => .object typeName body

def ofValue : Value → Layer Value
  | .leaf l => .leaf l
  | .sequence kind items => .sequence kind items
  | .dict entries => .dict entries
  | .object typeName body => .object typeName body

@[simp] theorem nests_value (n : Layer Value) : n.value.nests = n.nests := by
  cases n <;> rfl

@[simp] theorem nests_map (f : α → β) (n : Layer α) : (n.map f).nests = n.nests := by
  cases n <;> rfl

@[simp] theorem value_ofValue (v : Value) : (ofValue v).value = v := by
  cases v <;> rfl

@[simp] theorem children_ofValue (v : Value) : (ofValue v).children = v.children := by
  cases v <;> rfl

theorem children_map (f : α → β) (n : Layer α) : (n.map f).children = n.children.map f := by
  cases n with
  | dict entries => simp [map, children, List.map_flatMap, List.flatMap_map]
  | object typeName body => exact body.children_map f
  | _ => rfl

theorem map_congr {f g : α → β} {n : Layer α} (h : ∀ c ∈ n.children, f c = g c) :
    n.map f = n.map g := by
  cases n with
  | leaf l => rfl
  | sequence kind items => exact congrArg (sequence kind) (List.map_congr_left h)
  | dict entries =>
    simp only [map, dict.injEq]
    apply List.map_congr_left
    intro e he
    have hmem : ∀ c ∈ [e.1, e.2], c ∈ (dict entries).children := fun c hc =>
      List.mem_flatMap.mpr ⟨e, he, hc⟩
    rw [h e.1 (hmem _ (by simp)), h e.2 (hmem _ (by simp))]
  | object typeName body => exact congrArg (object typeName) (Body.map_congr h)

/-- A layer with nothing inside is the same over any type. -/
theorem map_map_of_childless {n : Layer α} (h : n.children = []) (f : α → β) (g : β → α) :
    (n.map f).map g = n := by
  cases n with
  | leaf l => rfl
  | sequence kind items =>
    obtain rfl : items = [] := h
    rfl
  | dict entries =>
    cases entries with
    | nil => rfl
    | cons e entries => cases h
  | object typeName body =>
    cases body with
    | descriptor d => cases h
    | array a => cases h
    | tree t => cases h
    | attributes entries =>
      obtain rfl : entries = [] := List.map_eq_nil_iff.mp h
      rfl
    | unresolved => rfl

end Layer

inductive Ref where
  | leaf (l : Leaf)
  | cell (address : Nat)
  deriving DecidableEq

def Ref.In (cells : List Nat) : Ref → Prop
  | .leaf _ => True
  | .cell a => a ∈ cells

def Ref.address? : Ref → Option Nat
  | .leaf _ => none
  | .cell a => some a

abbrev Heap := List (Layer Ref)

inductive Unfolds (h : Heap) : Ref → Value → Prop
  | leaf (l : Leaf) : Unfolds h (.leaf l) (.leaf l)
  | cell {a : Nat} {n : Layer Ref} {f : Ref → Value} : h[a]? = some n →
      (∀ c ∈ n.children, Unfolds h c (f c)) → Unfolds h (.cell a) (n.map f).value.normalize

theorem Unfolds.unique {h : Heap} {r : Ref} {u v : Value} (hu : Unfolds h r u)
    (hv : Unfolds h r v) : u = v := by
  induction hu generalizing v with
  | leaf l =>
    cases hv
    rfl
  | @cell a n f hn hf ih =>
    cases hv with
    | @cell _ n' g hn' hg =>
      obtain rfl := Option.some.inj (hn.symm.trans hn')
      rw [Layer.map_congr fun c hc => ih c hc (hg c hc)]

theorem Unfolds.mono {h h' : Heap} (hle : ∀ (a : Nat) (n : Layer Ref), h[a]? = some n → h'[a]? = some n) {r : Ref}
    {u : Value} (hu : Unfolds h r u) : Unfolds h' r u := by
  induction hu with
  | leaf l => exact .leaf l
  | cell hn _ ih => exact .cell (hle _ _ hn) ih

theorem Unfolds.append {h : Heap} {r : Ref} {u : Value} (hu : Unfolds h r u) (n : Layer Ref) :
    Unfolds (h ++ [n]) r u := by
  apply hu.mono
  intro a m hm
  obtain ⟨ha, -⟩ := List.getElem?_eq_some_iff.mp hm
  rw [List.getElem?_append_left ha, hm]

namespace Heap

open Classical in
noncomputable def tree (h : Heap) (r : Ref) : Value :=
  if hu : ∃ u, Unfolds h r u then hu.choose else .none

theorem tree_eq {h : Heap} {r : Ref} {u : Value}
    (hu : Unfolds h r u) : h.tree r = u := by
  have hex : ∃ u, Unfolds h r u := ⟨u, hu⟩
  rw [tree, dif_pos hex]
  exact hex.choose_spec.unique hu

/-- The settled cells unfold, and every cell refers to settled cells only. Cells
hold containers and objects, since leaves need none. -/
structure Settled (h : Heap) (cells : List Nat) : Prop where
  nests : ∀ (a : Nat) (n : Layer Ref), h[a]? = some n → n.nests
  unfolds : ∀ a ∈ cells, ∃ u, Unfolds h (.cell a) u
  children : ∀ (a : Nat) (n : Layer Ref), h[a]? = some n → ∀ c ∈ n.children, c.In cells

namespace Settled

variable {h : Heap} {cells : List Nat}

theorem unfolds_tree (hs : h.Settled cells) {r : Ref} (hr : r.In cells) :
    Unfolds h r (h.tree r) := by
  cases r with
  | leaf l =>
    rw [tree_eq (.leaf l)]
    exact .leaf l
  | cell a =>
    obtain ⟨u, hu⟩ := hs.unfolds a hr
    rw [tree_eq hu]
    exact hu

theorem unfolds_cell (hs : h.Settled cells) {a : Nat} {n : Layer Ref} (hn : h[a]? = some n) :
    Unfolds h (.cell a) (n.map h.tree).value.normalize :=
  .cell hn fun c hc => hs.unfolds_tree (hs.children a n hn c hc)

/-- What is in a settled cell. -/
theorem exists_layer (hs : h.Settled cells) {a : Nat} (ha : a ∈ cells) :
    ∃ n, h[a]? = some n ∧ (∀ c ∈ n.children, c.In cells) ∧
      h.tree (.cell a) = (n.map h.tree).value.normalize := by
  obtain ⟨u, hu⟩ := hs.unfolds a ha
  cases hu with
  | @cell _ n f hn hf =>
    exact ⟨n, hn, hs.children a n hn, tree_eq (hs.unfolds_cell hn)⟩

theorem settle (hs : h.Settled cells) {rs : List Ref} (hr : ∀ r ∈ rs, ∃ u, Unfolds h r u) :
    h.Settled (rs.filterMap Ref.address? ++ cells) where
  nests := hs.nests
  unfolds a ha := by
    rcases List.mem_append.mp ha with ha | ha
    · obtain ⟨r, hrs, har⟩ := List.mem_filterMap.mp ha
      cases r with
      | leaf l => cases har
      | cell b =>
        obtain rfl := Option.some.inj har
        exact hr _ hrs
    · exact hs.unfolds a ha
  children a n hn c hc := by
    have hin := hs.children a n hn c hc
    cases c with
    | leaf l => trivial
    | cell b => exact List.mem_append_right _ hin

theorem append (hs : h.Settled cells) {n : Layer Ref} (hnests : n.nests)
    (hn : ∀ c ∈ n.children, c.In cells) : Settled (h ++ [n]) cells where
  nests a m hm := by
    by_cases ha : a < h.length
    · rw [List.getElem?_append_left ha] at hm
      exact hs.nests a m hm
    · rw [List.getElem?_append_right (Nat.le_of_not_lt ha)] at hm
      obtain rfl := List.mem_singleton.mp (List.mem_of_getElem? hm)
      exact hnests
  unfolds a ha := by
    obtain ⟨u, hu⟩ := hs.unfolds a ha
    exact ⟨u, hu.append n⟩
  children a m hm := by
    by_cases ha : a < h.length
    · rw [List.getElem?_append_left ha] at hm
      exact hs.children a m hm
    · rw [List.getElem?_append_right (Nat.le_of_not_lt ha)] at hm
      obtain rfl := List.mem_singleton.mp (List.mem_of_getElem? hm)
      exact hn

/-- Cells refer to settled cells only, so below a reference to another cell nothing refers to
one that is not settled. -/
theorem unfolds_set_of_ne (hs : h.Settled cells) {a : Nat} (ha : a ∉ cells) (n : Layer Ref)
    {r : Ref} {u : Value} (hr : r ≠ .cell a) (hu : Unfolds h r u) : Unfolds (h.set a n) r u := by
  induction hu with
  | leaf l => exact .leaf l
  | @cell b m f hm hf ih =>
    have hne : a ≠ b := by
      rintro rfl
      exact hr rfl
    have hm' : (h.set a n)[b]? = some m := by rw [List.getElem?_set_ne hne, hm]
    refine .cell hm' fun c hc => ih c hc ?_
    rintro rfl
    exact ha (hs.children b m hm _ hc)

theorem unfolds_set_of_in (hs : h.Settled cells) {a : Nat} (ha : a ∉ cells) (n : Layer Ref)
    {r : Ref} {u : Value} (hr : r.In cells) (hu : Unfolds h r u) : Unfolds (h.set a n) r u := by
  apply hs.unfolds_set_of_ne ha n _ hu
  rintro rfl
  exact ha hr

theorem set (hs : h.Settled cells) {a : Nat} (ha : a ∉ cells) {n : Layer Ref} (hnests : n.nests)
    (hn : ∀ c ∈ n.children, c.In cells) : Settled (h.set a n) cells where
  nests b m hm := by
    by_cases hab : a = b
    · subst hab
      rw [List.getElem?_set_self'] at hm
      obtain ⟨m', -, rfl⟩ := Option.map_eq_some_iff.mp hm
      exact hnests
    · rw [List.getElem?_set_ne hab] at hm
      exact hs.nests b m hm
  unfolds b hb := by
    obtain ⟨u, hu⟩ := hs.unfolds b hb
    exact ⟨u, hs.unfolds_set_of_in ha n (r := .cell b) hb hu⟩
  children b m hm := by
    by_cases hab : a = b
    · subst hab
      rw [List.getElem?_set_self'] at hm
      obtain ⟨m', -, rfl⟩ := Option.map_eq_some_iff.mp hm
      exact hn
    · rw [List.getElem?_set_ne hab] at hm
      exact hs.children b m hm

end Settled

end Heap

end PickledModel
