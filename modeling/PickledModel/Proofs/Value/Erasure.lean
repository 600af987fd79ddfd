import Mathlib
import PickledModel.Proofs.Object.Resolution
import PickledModel.Proofs.Object.Rewriting
import PickledModel.Proofs.Sharing.Heap
import PickledModel.Proofs.Stream.DistinctKeys
import PickledModel.Proofs.Value.Equality
import PickledModel.Proofs.Value.Footprint

/-! Values without the content of the objects of one type. Equal values are equal
without it, and some that differed are equal then too. As long as that happens to
no two keys, making keys distinct and leaving content out can change places. -/

set_option autoImplicit false

namespace PickledModel

theorem Body.map_map {α β γ : Type} (f : α → β) (g : β → γ) (b : Body α) :
    (b.map f).map g = b.map fun c => g (f c) := by
  cases b with
  | descriptor d => obtain ⟨_, _, _, _ | _⟩ := d <;> rfl
  | array a => obtain ⟨_, _, _ | ⟨_, _, _, _ | _⟩, _, _, _, _, _⟩ := a <;> rfl
  | tree t => rfl
  | attributes entries => exact congrArg attributes (by simp)
  | unresolved => rfl

namespace Layer

def erase {α : Type} (typeName : String) : Layer α → Layer α
  | .object name body => .object name (if name = typeName then .unresolved else body)
  | l => l

theorem mem_children_erase {α : Type} {typeName : String} {l : Layer α} {c : α}
    (h : c ∈ (l.erase typeName).children) : c ∈ l.children := by
  cases l with
  | object name body =>
    by_cases hname : name = typeName
    · rw [erase, if_pos hname] at h
      cases h
    · rwa [erase, if_neg hname] at h
  | _ => exact h

end Layer

namespace Value

def erase (typeName : String) (v : Value) : Value :=
  -- what is inside weighs less, so that the other branch is never taken
  (((Layer.ofValue v).erase typeName).map fun c =>
    if c.weight < v.weight then erase typeName c else c).value
termination_by v.weight

variable {n : String}

theorem erase_eq (n : String) (v : Value) :
    v.erase n = (((Layer.ofValue v).erase n).map (erase n)).value := by
  rw [erase]
  apply congrArg Layer.value
  apply Layer.map_congr
  intro c hc
  have hmem := Layer.mem_children_erase hc
  rw [Layer.children_ofValue] at hmem
  rw [if_pos (weight_lt_of_mem hmem)]

@[simp] theorem erase_leaf (l : Leaf) : (leaf l).erase n = leaf l := erase_eq n _

theorem erase_sequence (kind : SequenceKind) (items : List Value) :
    (sequence kind items).erase n = sequence kind (items.map (erase n)) := erase_eq n _

theorem erase_dict (entries : List (Value × Value)) :
    (dict entries).erase n = dict (entries.map fun e => (e.1.erase n, e.2.erase n)) :=
  erase_eq n _

theorem erase_object_self (body : Body Value) :
    (object n body).erase n = object n .unresolved := by
  rw [erase_eq]
  simp only [Layer.ofValue, Layer.erase, if_true]
  rfl

theorem erase_object {name : String} (hname : name ≠ n) (body : Body Value) :
    (object name body).erase n = object name (body.map (erase n)) := by
  rw [erase_eq]
  simp only [Layer.ofValue, Layer.erase, if_neg hname]
  rfl

def Built (n : String) : Value → Prop
  | .object name body => name = n → body.builder? = some .attributes
  | _ => True

theorem built_stable (n : String) : Stable (Built n) where
  ordinary v hv := by
    cases v with
    | object name body => cases hv
    | _ => trivial
  restore name body state c h hname := (Body.restore_builder? name state body c).trans (h hname)

theorem erase_rewriting (n : String) : Rewriting (erase n) (· = n) (Throughout (Built n)) where
  hereditary := (built_stable n).hereditary
  leaf := erase_leaf
  sequence := erase_sequence
  dict := erase_dict
  kept _ body hname := erase_object hname body
  lost name body hname := by
    subst hname
    exact erase_object_self body
  attributes _ _ hname hbuilt := Body.builder?_eq_attributes (hbuilt.here hname)

theorem children_erase {v : Value} (h : ∀ body, v ≠ object n body) :
    (v.erase n).children = v.children.map (erase n) := by
  have hlayer : (Layer.ofValue v).erase n = Layer.ofValue v := by
    cases v with
    | object name body =>
      have hname : name ≠ n := by
        rintro rfl
        exact h body rfl
      simp only [Layer.ofValue, Layer.erase, if_neg hname]
    | _ => rfl
  have hchildren : ∀ l : Layer Value, l.value.children = l.children := by
    intro l
    cases l <;> rfl
  rw [erase_eq, hlayer, hchildren, Layer.children_map, Layer.children_ofValue]

theorem sameHead_erase {a b : Value} (h : a.sameHead b = true) :
    (a.erase n).sameHead (b.erase n) = true := by
  cases a with
  | leaf l =>
    cases b with
    | leaf l' => simpa using h
    | _ => cases h
  | sequence kind items =>
    cases b with
    | sequence kind' items' => simpa [erase_sequence, sameHead] using h
    | _ => cases h
  | dict entries =>
    cases b with
    | dict entries' => simpa [erase_dict, sameHead] using h
    | _ => cases h
  | object name body =>
    cases b with
    | object name' body' =>
      simp only [sameHead, Bool.and_eq_true, beq_iff_eq] at h
      obtain ⟨rfl, hbody⟩ := h
      by_cases hname : name = n
      · subst hname
        simp [erase_object_self, sameHead]
      · simp [erase_object hname, sameHead, Body.map_map, hbody]
    | _ => cases h

theorem eq_object_of_sameHead {name : String} {body : Body Value} {v : Value}
    (h : (object name body).sameHead v = true) : ∃ body', v = object name body' := by
  cases v with
  | object name' body' =>
    simp only [sameHead, Bool.and_eq_true, beq_iff_eq] at h
    exact ⟨body', by rw [h.1]⟩
  | _ => cases h

/-- Equal values are equal without the content of some objects. -/
theorem equal_erase {a b : Value} (h : a.equal b = true) :
    (a.erase n).equal (b.erase n) = true := by
  induction a using childInduction generalizing b with
  | step a ih =>
    obtain ⟨hhead, hall⟩ := equal_iff.mp h
    refine equal_iff.mpr ⟨sameHead_erase hhead, ?_⟩
    have hmapped : List.Forall₂ (fun c d => c.equal d = true) (a.children.map (erase n))
        (b.children.map (erase n)) := by
      rw [List.forall₂_map_left_iff, List.forall₂_map_right_iff]
      apply ((List.forall₂_and_left _ _).mpr ⟨fun c hc => hc, hall⟩).imp
      exact fun c d hcd => ih c hcd.1 hcd.2
    by_cases hobject : ∃ body, a = object n body
    · obtain ⟨body, rfl⟩ := hobject
      obtain ⟨body', rfl⟩ := eq_object_of_sameHead hhead
      rw [erase_object_self, erase_object_self]
      exact .nil
    · have ha : ∀ body, a ≠ object n body := fun body hbody => hobject ⟨body, hbody⟩
      have hb : ∀ body, b ≠ object n body := by
        rintro body rfl
        rw [sameHead_comm] at hhead
        exact hobject (eq_object_of_sameHead hhead)
      rwa [children_erase ha, children_erase hb]

def Apart (n : String) (keys : List Value) : Prop :=
  keys.Pairwise fun a b => (a.erase n).equal (b.erase n) = false

abbrev eraseEntry (n : String) (e : Value × Value) : Value × Value := (e.1.erase n, e.2.erase n)

theorem keys_sublist_insertEntry (key value : Value) (rows : List (Value × Value)) :
    (rows.map Prod.fst).Sublist ((insertEntry key value rows).map Prod.fst) := by
  induction rows with
  | nil => exact List.nil_sublist _
  | cons row rows ih =>
    rw [insertEntry]
    by_cases h : row.1.equal key = true
    · rw [if_pos h]
      exact List.Sublist.refl _
    · rw [if_neg h]
      exact ih.cons_cons _

theorem keys_sublist_insertEntries (done entries : List (Value × Value)) :
    (done.map Prod.fst).Sublist ((insertEntries done entries).map Prod.fst) := by
  induction entries generalizing done with
  | nil => exact List.Sublist.refl _
  | cons e entries ih => exact (keys_sublist_insertEntry e.1 e.2 done).trans (ih _)

/-- A key that is put among others is equal to one of them then, or is one of them. -/
theorem exists_key_insertEntry (key value : Value) (rows : List (Value × Value)) :
    ∃ k ∈ (insertEntry key value rows).map Prod.fst, k = key ∨ k.equal key = true := by
  induction rows with
  | nil => exact ⟨key, List.mem_singleton.mpr rfl, .inl rfl⟩
  | cons row rows ih =>
    rw [insertEntry]
    by_cases h : row.1.equal key = true
    · rw [if_pos h]
      exact ⟨row.1, List.mem_cons_self, .inr h⟩
    · rw [if_neg h]
      obtain ⟨k, hk, hkey⟩ := ih
      exact ⟨k, List.mem_cons_of_mem _ hk, hkey⟩

/-- If the keys stay apart, an entry goes to the same place without content. -/
theorem insertEntry_erase {key value : Value} {rows : List (Value × Value)}
    (h : Apart n ((insertEntry key value rows).map Prod.fst)) :
    insertEntry (key.erase n) (value.erase n) (rows.map (eraseEntry n)) =
      (insertEntry key value rows).map (eraseEntry n) := by
  induction rows with
  | nil => rfl
  | cons row rows ih =>
    rw [insertEntry] at h ⊢
    rw [List.map_cons, insertEntry]
    by_cases hr : row.1.equal key = true
    · rw [if_pos hr, if_pos (equal_erase hr)]
      rfl
    · rw [if_neg hr] at h ⊢
      obtain ⟨hrow, hrows⟩ := List.pairwise_cons.mp h
      have hne : ¬ (row.1.erase n).equal (key.erase n) = true := by
        intro heq
        obtain ⟨k, hk, hkey⟩ := exists_key_insertEntry key value rows
        have hapart := hrow k hk
        rcases hkey with rfl | hkey
        · rw [heq] at hapart
          cases hapart
        · have hback := equal_erase (n := n) hkey
          rw [equal_comm] at hback
          rw [equal_trans heq hback] at hapart
          cases hapart
      rw [if_neg hne, ih hrows]
      rfl

theorem insertEntries_erase {done entries : List (Value × Value)}
    (h : Apart n ((insertEntries done entries).map Prod.fst)) :
    insertEntries (done.map (eraseEntry n)) (entries.map (eraseEntry n)) =
      (insertEntries done entries).map (eraseEntry n) := by
  induction entries generalizing done with
  | nil => rfl
  | cons e entries ih =>
    have hone := List.Pairwise.sublist
      (keys_sublist_insertEntries (insertEntry e.1 e.2 done) entries) h
    change insertEntries (insertEntry (e.1.erase n) (e.2.erase n) (done.map (eraseEntry n)))
      (entries.map (eraseEntry n)) = _
    rw [insertEntry_erase hone]
    exact ih h

theorem distinctEntries_erase {entries : List (Value × Value)}
    (h : Apart n ((distinctEntries entries).map Prod.fst)) :
    distinctEntries (entries.map (eraseEntry n)) =
      (distinctEntries entries).map (eraseEntry n) := by
  rw [distinctEntries_eq_insertEntries] at h ⊢
  rw [distinctEntries_eq_insertEntries]
  exact @insertEntries_erase n [] entries h

theorem distinctItems_erase {items : List Value} (h : Apart n (distinctItems items)) :
    distinctItems (items.map (erase n)) = (distinctItems items).map (erase n) := by
  rw [distinctItems_eq_map] at h
  have hentries : distinctEntries ((items.map (·, none)).map (eraseEntry n)) =
      (distinctEntries (items.map (·, none))).map (eraseEntry n) := distinctEntries_erase h
  have hnone : (items.map (·, none)).map (eraseEntry n) = (items.map (erase n)).map (·, none) := by
    simp [eraseEntry]
  rw [hnone] at hentries
  rw [distinctItems_eq_map, hentries, distinctItems_eq_map]
  simp

/-- Taken out of a slot, a value has keys that stay apart. -/
def KeysApart (n : String) (v : Value) : Prop := Apart n v.normalize.keys

/-- If its keys stay apart, a value is made distinct and erased in either order. -/
theorem normalize_erase {v : Value} (h : v.KeysApart n) :
    (v.erase n).normalize = v.normalize.erase n := by
  cases v with
  | leaf l => simp [normalize]
  | sequence kind items =>
    cases kind with
    | list | tuple =>
      show ((sequence _ items).erase n).normalize = (sequence _ items).erase n
      rw [erase_sequence]
      rfl
    | set | frozenSet =>
      rw [normalize, erase_sequence, erase_sequence, normalize, distinctItems_erase h]
  | dict entries => rw [normalize, erase_dict, erase_dict, normalize, distinctEntries_erase h]
  | object name body =>
    show ((object name body).erase n).normalize = (object name body).erase n
    by_cases hname : name = n
    · subst hname
      rw [erase_object_self]
      rfl
    · rw [erase_object hname]
      rfl

/-- Next to a value, the erased one; if two of its keys fall together, any that nests alike. -/
def Erases (n : String) (v w : Value) : Prop := v.nests = w.nests ∧ (v.KeysApart n → w = v.erase n)

theorem erases_self (v : Value) : v.Erases n (v.erase n) :=
  ⟨((erase_rewriting n).nests v).symm, fun _ => rfl⟩

/-- A set of erased items is the erased set, as long as its items stay apart. -/
theorem erases_distinctItems {kind : SequenceKind} (hkind : kind = .set ∨ kind = .frozenSet)
    (items : List Value) :
    (sequence kind (distinctItems items)).Erases n
      (sequence kind (distinctItems (items.map (erase n)))) := by
  refine ⟨rfl, fun h => ?_⟩
  have hapart : Apart n (distinctItems (distinctItems items)) := by
    rcases hkind with rfl | rfl <;> exact h
  rw [distinctItems_distinctItems] at hapart
  rw [erase_sequence, distinctItems_erase hapart]

theorem shallowSize_erase (v : Value) : (v.erase n).shallowSize = v.shallowSize :=
  (erase_rewriting n).outside (fun _ _ _ => rfl) (fun _ _ => rfl) (fun _ _ _ => rfl) v

/-- Without the content of some objects a value costs no more to copy. -/
theorem size_erase_le (n : String) (v : Value) : (v.erase n).size ≤ v.size := by
  induction v using childInduction with
  | step v ih =>
    by_cases hobject : ∃ body, v = object n body
    · obtain ⟨body, rfl⟩ := hobject
      rw [erase_object_self, size_eq, size_eq]
      exact Nat.le_add_right _ _
    · have hchildren := children_erase fun body hbody => hobject ⟨body, hbody⟩
      rw [size_eq, size_eq v, hchildren, shallowSize_erase, List.map_map]
      exact Nat.add_le_add_left (List.sum_le_sum ih) _

theorem cost_erase_le (n : String) (v : Value) : (v.erase n).cost ≤ v.cost := by
  have := size_erase_le n v
  rw [cost, cost]
  omega

end Value

end PickledModel
