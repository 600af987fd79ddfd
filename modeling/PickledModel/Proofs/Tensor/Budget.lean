import Mathlib
import PickledModel.Proofs.Process.Outcome
import PickledModel.Tensor.Payload

/-! What a budget of elements bounds. Where a shape has no empty dimension, a
level that is entered shows an element, so the budget bounds the entries of every
array and, with the number of dimensions, all that is shown. Where one is empty
no element is ever shown: the budget stays as it is and each dimension before the
empty one is written out in full. -/

set_option autoImplicit false

namespace PickledModel.Tensor

namespace Content

def scalars : Content → Nat
  | .scalar _ => 1
  | .array items => (items.map scalars).sum
  | .cut => 0

def nodes : Content → Nat
  | .array items => (items.map nodes).sum + 1
  | _ => 1

inductive Narrow (n : Nat) : Content → Prop where
  | scalar (s : Scalar) : Narrow n (.scalar s)
  | array {items : List Content} (hlength : items.length ≤ n)
      (hitems : ∀ c ∈ items, Narrow n c) : Narrow n (.array items)
  | cut : Narrow n .cut

theorem narrow_array_iff {n : Nat} {items : List Content} :
    (array items).Narrow n ↔ items.length ≤ n ∧ ∀ c ∈ items, c.Narrow n := by
  constructor
  · intro h
    cases h with
    | array hlength hitems => exact ⟨hlength, hitems⟩
  · intro h
    exact .array h.1 h.2

theorem Narrow.mono {n k : Nat} {c : Content} (h : c.Narrow n) (hk : n ≤ k) : c.Narrow k := by
  induction h with
  | scalar s => exact .scalar s
  | array hlength _ ih => exact .array (hlength.trans hk) ih
  | cut => exact .cut

def hollow : List Nat → Content
  | [] => .array []
  | n :: shape => .array (List.replicate n (hollow shape))

theorem scalars_hollow (shape : List Nat) : (hollow shape).scalars = 0 := by
  induction shape with
  | nil => simp [hollow, scalars]
  | cons n shape ih => simp [hollow, scalars, ih]

theorem narrow_hollow_iff {n : Nat} (shape : List Nat) :
    (hollow shape).Narrow n ↔ ∀ d ∈ shape.takeWhile (· ≠ 0), d ≤ n := by
  induction shape with
  | nil => simp [hollow, narrow_array_iff]
  | cons d shape ih =>
    by_cases hd : d = 0
    · simp [hollow, narrow_array_iff, hd]
    · simp [hollow, narrow_array_iff, hd, ih]

end Content

namespace Progress

def spent (p : Progress) : Nat := if p.budget = 0 then 1 else 0

end Progress

structure Shown (dimensions start : Nat) (c : Content) (p : Progress) : Prop where
  used : c.scalars + p.budget = start
  advances : 0 < start → 0 < c.scalars
  narrow : c.Narrow (start + 1)
  small : c.nodes ≤ dimensions * (c.scalars + p.spent) + 1

structure ItemsShown (dimensions start : Nat) (done : List Content) (p : Progress) : Prop where
  used : (done.map Content.scalars).sum + p.budget = start
  advances : done.length ≤ (done.map Content.scalars).sum
  narrow : ∀ c ∈ done, c.Narrow (start + 1)
  small : (done.map Content.nodes).sum ≤
    dimensions * ((done.map Content.scalars).sum + p.spent) + (done.map Content.scalars).sum

variable {dimensions start : Nat} {c : Content} {done : List Content} {p p' : Progress}

theorem ItemsShown.nil (p : Progress) : ItemsShown dimensions p.budget [] p :=
  ⟨by simp, by simp, by simp, by simp⟩

/-- Where some of the budget is left, one more item shows an element of its own. -/
theorem ItemsShown.cons (h : ItemsShown dimensions start done p) (hp : 0 < p.budget)
    (hc : Shown dimensions p.budget c p') : ItemsShown dimensions start (c :: done) p' := by
  have hused := h.used
  have hcount := h.advances
  have hsmall := h.small
  have hcused := hc.used
  have hcount' := hc.advances hp
  have hcsmall := hc.small
  have hspent : p.spent = 0 := if_neg (Nat.ne_of_gt hp)
  rw [hspent, Nat.add_zero] at hsmall
  rw [Nat.mul_add] at hcsmall
  constructor
  · rw [List.map_cons, List.sum_cons]
    omega
  · rw [List.map_cons, List.sum_cons, List.length_cons]
    omega
  · intro d hd
    rcases List.mem_cons.mp hd with rfl | hd
    · exact hc.narrow.mono (by omega)
    · exact h.narrow d hd
  · simp only [List.map_cons, List.sum_cons, Nat.mul_add]
    omega

theorem ItemsShown.array (h : ItemsShown dimensions start done p)
    (hdone : 0 < start → done ≠ []) : Shown (dimensions + 1) start (.array done.reverse) p := by
  have hused := h.used
  have hcount := h.advances
  have hsmall := h.small
  constructor
  · simp only [Content.scalars, List.map_reverse, List.sum_reverse]
    exact hused
  · intro hstart
    have hlength := List.length_pos_iff.mpr (hdone hstart)
    simp only [Content.scalars, List.map_reverse, List.sum_reverse]
    omega
  · apply Content.narrow_array_iff.mpr
    constructor
    · rw [List.length_reverse]
      omega
    · intro c hc
      exact h.narrow c (List.mem_reverse.mp hc)
  · simp only [Content.nodes, Content.scalars, List.map_reverse, List.sum_reverse, Nat.succ_mul]
    omega

/-- The cut that ends a level is an entry more than the elements shown. -/
theorem ItemsShown.cut (h : ItemsShown dimensions start done p) (hp : p.budget = 0) :
    Shown (dimensions + 1) start (.array (.cut :: done).reverse) p := by
  have hused := h.used
  have hcount := h.advances
  have hsmall := h.small
  have hspent : p.spent = 1 := if_pos hp
  have hscalars : (Content.array (.cut :: done).reverse).scalars = (done.map Content.scalars).sum := by
    simp [Content.scalars]
  have hnodes : (Content.array (.cut :: done).reverse).nodes = (done.map Content.nodes).sum + 2 := by
    simp [Content.nodes]
  constructor
  · omega
  · intro hstart
    omega
  · apply Content.narrow_array_iff.mpr
    constructor
    · rw [List.length_reverse, List.length_cons]
      omega
    · intro c hc
      rcases List.mem_cons.mp (List.mem_reverse.mp hc) with rfl | hc
      · exact .cut
      · exact h.narrow c hc
  · rw [hnodes, hscalars, Nat.succ_mul]
    omega

theorem items_shown {item : Progress → Except TensorError (Content × Progress)} {n : Nat}
    (hitem : ∀ {c q q'}, 0 < q.budget → q.budget ≤ start → item q = .ok (c, q') →
      Shown dimensions q.budget c q')
    (hdone : ItemsShown dimensions start done p) (hn : 0 < start → n = 0 → done ≠ [])
    (h : items item n done p = .ok (c, p')) : Shown (dimensions + 1) start c p' := by
  induction n generalizing done p with
  | zero =>
    rw [items] at h
    obtain ⟨rfl, rfl⟩ : .array done.reverse = c ∧ p = p' := by simpa using h
    exact hdone.array fun hstart => hn hstart rfl
  | succ n ih =>
    rw [items] at h
    by_cases hp : p.budget = 0
    · rw [if_pos hp] at h
      obtain ⟨rfl, rfl⟩ : .array (.cut :: done).reverse = c ∧ p = p' := by simpa using h
      exact hdone.cut hp
    · rw [if_neg hp] at h
      match hi : item p with
      | .error e => simp [hi] at h
      | .ok (d, q) =>
        rw [hi] at h
        have hpos := Nat.pos_of_ne_zero hp
        have hle := Nat.le.intro ((Nat.add_comm _ _).trans hdone.used)
        exact ih (hdone.cons hpos (hitem hpos hle hi)) (fun _ _ => List.cons_ne_nil d done) h

theorem element_shown {t : ElementType} (hp : 0 < p.budget) (h : element t p = .ok (c, p')) :
    Shown 0 p.budget c p' := by
  rw [element] at h
  match ht : readScalar t with
  | none => simp [ht] at h
  | some read =>
    match hr : read p.cursor with
    | .error e => simp [ht, hr] at h
    | .ok (s, cursor) =>
      obtain ⟨rfl, rfl⟩ : .scalar s = c ∧ ⟨cursor, p.budget - 1⟩ = p' := by simpa [ht, hr] using h
      exact ⟨by simp only [Content.scalars]; omega, fun _ => by simp [Content.scalars], .scalar s,
        by simp [Content.nodes]⟩

/-- By induction on the shape; with some of the budget left, an empty dimension would
be a level that is entered and shows nothing. -/
theorem level_shown {t : ElementType} {shape : List Nat} (hshape : 0 < p.budget → 0 ∉ shape)
    (hp : 0 < p.budget ∨ shape ≠ []) (h : level t shape p = .ok (c, p')) :
    Shown shape.length p.budget c p' := by
  induction shape generalizing c p p' with
  | nil => exact element_shown (hp.resolve_right fun hn => hn rfl) h
  | cons n shape ih =>
    have hparts : 0 < p.budget → n ≠ 0 ∧ 0 ∉ shape := by simpa [eq_comm] using hshape
    rw [level] at h
    apply items_shown _ (.nil p) _ h
    · intro c q q' hq hle hi
      exact ih (fun _ => (hparts (by omega)).2) (.inl hq) hi
    · intro hstart hn
      exact absurd hn (hparts hstart).1

theorem items_replicate {item : Progress → Except TensorError (Content × Progress)}
    (hp : 0 < p.budget) (hitem : item p = .ok (c, p)) (n : Nat) (done : List Content) :
    items item n done p = .ok (.array (done.reverse ++ List.replicate n c), p) := by
  induction n generalizing done with
  | zero => simp [items]
  | succ n ih =>
    rw [items, if_neg (Nat.ne_of_gt hp), hitem]
    simp [ih, List.replicate_succ]

/-- An empty dimension leaves the budget as it is, so nothing around it is cut. -/
theorem level_hollow (t : ElementType) {shape : List Nat} (hshape : 0 ∈ shape)
    (hp : 0 < p.budget) : level t shape p = .ok (.hollow shape, p) := by
  induction shape with
  | nil => simp at hshape
  | cons n shape ih =>
    rw [level, Content.hollow]
    by_cases hn : n = 0
    · rw [hn, items]
      rfl
    · have hrest : 0 ∈ shape := (List.mem_cons.mp hshape).resolve_left (Ne.symm hn)
      exact items_replicate hp (ih hrest) n []

theorem decode_cases {t : TensorType} {data : Bytes} {b : Nat} {v : Content}
    (h : decode t data b = .ok v) :
    (t.shape = [] ∧ b = 0 ∧ v = .cut) ∨
      ((0 < b ∨ t.shape ≠ []) ∧
        ∃ p, level t.elementType t.shape ⟨.ofBytes data, b⟩ = .ok (v, p)) := by
  obtain ⟨-, -, h⟩ := Except.bind_ok h
  by_cases hs : t.shape = [] ∧ b = 0
  · rw [if_pos hs] at h
    cases h
    exact .inl ⟨hs.1, hs.2, rfl⟩
  · rw [if_neg hs] at h
    obtain ⟨⟨c, p⟩, hl, h⟩ := Except.bind_ok h
    cases h
    have hentered : 0 < b ∨ t.shape ≠ [] := by
      rw [Nat.pos_iff_ne_zero]
      tauto
    exact .inr ⟨hentered, p, hl⟩

/-- The elements shown are within the budget. The entries of every array are within
one more exactly where the shape has no empty dimension, the budget is zero or every
dimension before the first empty one is within that itself. Where no dimension is
empty or the budget is zero, the budget and the number of dimensions bound all that
is shown. -/
theorem decode_bounded {t : TensorType} {data : Bytes} {b : Nat} {v : Content}
    (h : decode t data b = .ok v) :
    v.scalars ≤ b ∧
      (v.Narrow (b + 1) ↔
        0 ∉ t.shape ∨ b = 0 ∨ ∀ d ∈ t.shape.takeWhile (· ≠ 0), d ≤ b + 1) ∧
      (0 ∉ t.shape ∨ b = 0 → v.nodes ≤ (b + 1) * t.shape.length + 1) := by
  rcases decode_cases h with ⟨hs, rfl, rfl⟩ | ⟨hb, p, hl⟩
  · simp [hs, Content.scalars, Content.nodes, Content.Narrow.cut]
  · by_cases hz : 0 < b ∧ 0 ∈ t.shape
    · rw [level_hollow _ hz.2 hz.1] at hl
      obtain ⟨rfl, -⟩ : Content.hollow t.shape = v ∧ _ = p := by simpa using hl
      have hne := Nat.ne_of_gt hz.1
      simp [Content.scalars_hollow, Content.narrow_hollow_iff, hz.2, hne]
    · have hshape : 0 < b → 0 ∉ t.shape := fun hpos hmem => hz ⟨hpos, hmem⟩
      have hfull : 0 ∉ t.shape ∨ b = 0 := by
        rw [← Nat.le_zero, ← Nat.not_lt]
        tauto
      have hshown := level_shown hshape hb hl
      have hused : v.scalars + p.budget = b := hshown.used
      have hspent : v.scalars + p.spent ≤ b + 1 := by
        rw [Progress.spent]
        split <;> omega
      have hlevels := Nat.mul_le_mul_left t.shape.length hspent
      have hsmall := hshown.small
      constructor
      · omega
      constructor
      · exact iff_of_true hshown.narrow (hfull.imp_right .inl)
      · intro _
        rw [Nat.mul_comm]
        omega

/-- Two rows of two, of which a budget of three shows one in full. -/
theorem decode_bounded_rows :
    decode ⟨.int32, [2, 2]⟩ [1, 0, 0, 0, 2, 0, 0, 0, 3, 0, 0, 0, 4, 0, 0, 0] 3 =
        .ok (.array [.array [.scalar (.int32 1), .scalar (.int32 2)],
          .array [.scalar (.int32 3), .cut]]) ∧
      (Content.array [.array [.scalar (.int32 1), .scalar (.int32 2)],
        .array [.scalar (.int32 3), .cut]]).nodes ≤ 9 := by
  have h : decode ⟨.int32, [2, 2]⟩ [1, 0, 0, 0, 2, 0, 0, 0, 3, 0, 0, 0, 4, 0, 0, 0] 3 =
      .ok (.array [.array [.scalar (.int32 1), .scalar (.int32 2)],
        .array [.scalar (.int32 3), .cut]]) := by cbv
  exact ⟨h, (decode_bounded h).2.2 (.inl (by decide))⟩

/-- Three empty rows under a budget of one. -/
theorem empty_rows_exceed_budget :
    decode ⟨.int32, [3, 0]⟩ [] 1 = .ok (.array [.array [], .array [], .array []]) ∧
      ¬ (Content.array [.array [], .array [], .array []]).Narrow (1 + 1) := by
  constructor
  · cbv
  · intro h
    have hlength := (Content.narrow_array_iff.mp h).1
    simp at hlength

end PickledModel.Tensor
