import Mathlib.Data.List.Zip
import PickledModel.Value.Equality

/-! Equality of values is symmetric and transitive. It is not reflexive, as a NaN
differs from itself. Both laws come from those of heads, by induction on what is
inside a value. -/

set_option autoImplicit false

namespace PickledModel

theorem Binary64.equal_trans {x y z : Binary64} (h : x.equal y = true) (h' : y.equal z = true) :
    x.equal z = true := by
  simp only [equal, Bool.and_eq_true, Bool.or_eq_true, beq_iff_eq] at h h' ⊢
  obtain ⟨⟨hx, -⟩, hxy⟩ := h
  obtain ⟨⟨-, hz⟩, hyz⟩ := h'
  refine ⟨⟨hx, hz⟩, ?_⟩
  rcases hxy with hxy | hxy <;> rcases hyz with hyz | hyz
  · exact .inl (hxy.trans hyz)
  · exact .inr ⟨by rw [isZero, hxy]; exact hyz.1, hyz.2⟩
  · exact .inr ⟨hxy.1, by rw [isZero, ← hyz]; exact hxy.2⟩
  · exact .inr ⟨hxy.1, hyz.2⟩

theorem Leaf.equal_trans {a b c : Leaf} (h : a.equal b = true) (h' : b.equal c = true) :
    a.equal c = true := by
  by_cases hfloat : ∃ x, b = .float x
  · obtain ⟨y, rfl⟩ := hfloat
    cases a with
    | float x =>
      cases c with
      | float z => exact Binary64.equal_trans h h'
      | _ => cases h'
    | _ => cases h
  · have heq : ∀ l : Leaf, b.equal l = (b == l) := by
      intro l
      cases b with
      | float x => exact absurd ⟨x, rfl⟩ hfloat
      | _ => cases l <;> rfl
    rw [heq] at h'
    rwa [← eq_of_beq h']

theorem Leaf.equal_comm (a b : Leaf) : a.equal b = b.equal a := by
  cases a with
  | float x =>
    cases b with
    | float y => exact x.equal_comm y
    | _ => rfl
  | _ =>
    cases b with
    | float y => rfl
    | _ => exact BEq.comm

namespace Value

theorem sameHead_comm (a b : Value) : a.sameHead b = b.sameHead a := by
  cases a <;> cases b <;> simp [sameHead, Leaf.equal_comm, Bool.beq_comm]

theorem equal_comm (a b : Value) : a.equal b = b.equal a := by
  induction a using childInduction generalizing b with
  | step a ih =>
    have hpairs : ∀ e ∈ b.children.zip a.children, e.2.equal e.1 = e.1.equal e.2 :=
      fun e he => ih e.2 (List.of_mem_zip he).2 e.1
    rw [equal_eq, equal_eq, sameHead_comm, ← List.zip_swap b.children, List.all_map]
    congr 1
    rw [Bool.eq_iff_iff, List.all_eq_true, List.all_eq_true]
    exact forall₂_congr fun e he => iff_of_eq (congrArg (· = true) (hpairs e he))

theorem length_children_of_sameHead {a b : Value} (h : a.sameHead b = true) :
    a.children.length = b.children.length := by
  cases a <;> cases b <;>
    simp only [sameHead, Bool.and_eq_true, beq_iff_eq, Bool.false_eq_true] at h
  · rfl
  · exact h.2
  · simp [children, h, List.length_flatMap]
  · have hmap := congrArg (fun body : Body Unit => body.children.length) h.2
    simpa [children, Body.children_map] using hmap

/-- Values are equal if their heads are, and what is inside them is equal in pairs. -/
theorem equal_iff {a b : Value} : a.equal b = true ↔
    a.sameHead b = true ∧ List.Forall₂ (fun c d => c.equal d = true) a.children b.children := by
  rw [equal_eq, Bool.and_eq_true, List.all_eq_true]
  constructor
  · rintro ⟨hhead, hall⟩
    refine ⟨hhead, List.forall₂_iff_zip.mpr ⟨length_children_of_sameHead hhead, ?_⟩⟩
    exact fun hmem => hall _ hmem
  · rintro ⟨hhead, hall⟩
    exact ⟨hhead, fun e he => (List.forall₂_iff_zip.mp hall).2 he⟩

theorem sameHead_trans {a b c : Value} (h : a.sameHead b = true) (h' : b.sameHead c = true) :
    a.sameHead c = true := by
  cases a <;> cases b <;> cases c <;>
    simp only [sameHead, Bool.and_eq_true, beq_iff_eq, Bool.false_eq_true] at h h' ⊢
  · exact Leaf.equal_trans h h'
  · exact ⟨h.1.trans h'.1, h.2.trans h'.2⟩
  · exact h.trans h'
  · exact ⟨h.1.trans h'.1, h.2.trans h'.2⟩

theorem equal_trans {a b c : Value} (h : a.equal b = true) (h' : b.equal c = true) :
    a.equal c = true := by
  induction a using childInduction generalizing b c with
  | step a ih =>
    obtain ⟨hhead, hall⟩ := equal_iff.mp h
    obtain ⟨hhead', hall'⟩ := equal_iff.mp h'
    refine equal_iff.mpr ⟨sameHead_trans hhead hhead', ?_⟩
    generalize a.children = as at ih hall
    generalize b.children = bs at hall hall'
    generalize c.children = cs at hall'
    clear h h' hhead hhead'
    induction hall generalizing cs with
    | nil =>
      cases hall'
      exact .nil
    | cons hxy _ ihs =>
      cases hall' with
      | cons hyz hall' =>
        constructor
        · exact ih _ List.mem_cons_self hxy hyz
        · exact ihs (fun x hx => ih x (List.mem_cons_of_mem _ hx)) _ hall'

theorem equal_of_equal_of_equal {a b c : Value} (ha : a.equal c = true) (hb : b.equal c = true) :
    a.equal b = true :=
  equal_trans ha (by rwa [equal_comm])

end Value

end PickledModel
