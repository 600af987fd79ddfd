import PickledModel.Proofs.Tensor.Budget

/-! What decoding shows. The elements of a payload fill the arrays of a shape in
row-major order, each from the bytes at its own place, until the budget is used up;
then the level at hand ends with a cut, and so does each level around it that has
items left. So a larger budget only puts content where there were cuts. -/

set_option autoImplicit false

namespace PickledModel

/-- The place of an element of a shape in row-major order, one index for each dimension. -/
def Shape.index : List Nat → Nat → List Nat
  | [], _ => []
  | _ :: shape, i => i / shape.prod :: index shape (i % shape.prod)

namespace Tensor

def decoder? : ElementType → Option (Bytes → Scalar)
  | .int32 => some fun bs => .int32 (Int32.ofInt (Word.signed bs))
  | .int64 => some fun bs => .int64 (Int64.ofInt (Word.signed bs))
  | .uint32 => some fun bs => .uint32 (UInt32.ofNat (Word.value bs))
  | .uint64 => some fun bs => .uint64 (UInt64.ofNat (Word.value bs))
  | .float32 => some fun bs => .float32 ⟨UInt32.ofNat (Word.value bs)⟩
  | .float64 => some fun bs => .float64 ⟨UInt64.ofNat (Word.value bs)⟩
  | .void _ => none

theorem readScalar_eq (t : ElementType) :
    readScalar t = (decoder? t).map fun f => f <$> Cursor.take t.itemSize := by
  cases t with
  | void bits => rfl
  | _ =>
    rw [readScalar, decoder?, Option.map_some]
    simp only [Cursor.i32, Cursor.i64, Cursor.u32, Cursor.u64, Cursor.f32, Cursor.f64,
      Cursor.integer, Cursor.word, Functor.map_map]
    rfl

theorem decoder?_eq_none_iff {t : ElementType} : decoder? t = none ↔ ∃ bits, t = .void bits := by
  cases t <;> simp [decoder?]

theorem itemSize_pos {t : ElementType} {f : Bytes → Scalar} (h : decoder? t = some f) :
    0 < t.itemSize := by
  cases t with
  | void bits => cases h
  | _ => decide

theorem check_eq_ok_iff {t : TensorType} {data : Bytes} :
    check t data = .ok () ↔
      t.shape.length ≤ maxDimensions ∧ (data = [] → Shape.count? t.shape = some 0) ∧
        (∃ f, decoder? t.elementType = some f) ∧ needed t ≤ data.length := by
  obtain ⟨element, shape⟩ := t
  rw [check]
  by_cases hdims : maxDimensions < shape.length
  · simp [hdims]
  by_cases hempty : data.isEmpty ∧ Shape.count? shape ≠ some 0
  · have hempty' : data = [] ∧ Shape.count? shape ≠ some 0 := by simpa using hempty
    simp [hdims, hempty']
  · have hfilled : data = [] → Shape.count? shape = some 0 := by simpa using hempty
    rw [if_neg hdims, if_neg hempty]
    cases element with
    | void bits => simp [decoder?]
    | _ => simpa [Nat.not_lt.mp hdims, decoder?] using fun _ => hfilled

def bytesAt (width : Nat) (data : Bytes) (i : Nat) : Bytes := (data.drop (width * i)).take width

def element? (t : TensorType) (data : Bytes) (i : Nat) : Option Scalar :=
  (decoder? t.elementType).map fun f => f (bytesAt t.elementType.itemSize data i)

namespace Content

def elements : Content → List Scalar
  | .scalar s => [s]
  | .array items => items.flatMap elements
  | .cut => []

def at? : List Nat → Content → Option Content
  | [], c => some c
  | i :: place, .array items => items[i]?.bind (at? place)
  | _ :: _, _ => none

inductive HasCut : Content → Prop where
  | cut : HasCut .cut
  | array {items : List Content} {c : Content} (hc : c ∈ items) (h : HasCut c) :
      HasCut (.array items)

theorem hasCut_array_iff {items : List Content} :
    (array items).HasCut ↔ ∃ c ∈ items, c.HasCut := by
  constructor
  · rintro (_ | ⟨hc, h⟩)
    exact ⟨_, hc, h⟩
  · rintro ⟨c, hc, h⟩
    exact .array hc h

/-- A content that is cut at the ends of arrays only, and at each of them once. -/
inductive Trimmed : Content → Prop where
  | scalar (s : Scalar) : Trimmed (.scalar s)
  | full {items : List Content} (h : ∀ c ∈ items, Trimmed c) : Trimmed (.array items)
  | short {items : List Content} (h : ∀ c ∈ items, Trimmed c) : Trimmed (.array (items ++ [.cut]))

mutual

/-- The second content is the first one, with content in place of its cuts. -/
inductive Refines : Content → Content → Prop where
  | scalar (s : Scalar) : Refines (.scalar s) (.scalar s)
  | cut (c : Content) : Refines .cut c
  | array {items items' : List Content} : ItemsRefine items items' →
      Refines (.array items) (.array items')

inductive ItemsRefine : List Content → List Content → Prop where
  | nil : ItemsRefine [] []
  | cons {c c' : Content} {items items' : List Content} : Refines c c' → ItemsRefine items items' →
      ItemsRefine (c :: items) (c' :: items')
  | cut (c : Content) (items : List Content) : ItemsRefine [.cut] (c :: items)

end

/-- The entries of a level from the element `i` on, which has `n` items of `size`
elements: each item from where the budget is not used up, and a cut for the others. -/
def entries (item : Nat → Content) (size budget : Nat) : Nat → Nat → List Content
  | 0, _ => []
  | n + 1, i => if i < budget then item i :: entries item size budget n (i + size) else [.cut]

def framed (f : Nat → Scalar) (budget : Nat) : List Nat → Nat → Content
  | [], i => .scalar (f i)
  | n :: shape, i => .array (entries (framed f budget shape) shape.prod budget n i)

section
variable {item item' : Nat → Content} {size b b' n i : Nat} {f : Nat → Scalar} {shape : List Nat}

theorem entries_of_le (h : b ≤ i) : entries item size b n i = if n = 0 then [] else [.cut] := by
  cases n with
  | zero => rfl
  | succ n => rw [entries, if_neg (Nat.not_lt.mpr h), if_neg (Nat.succ_ne_zero n)]

/-- Behind the budget it does not matter how far. -/
theorem entries_min : entries item size b n (min b i) = entries item size b n i := by
  rcases Nat.le_total b i with h | h
  · rw [Nat.min_eq_left h, entries_of_le (Nat.le_refl b), entries_of_le h]
  · rw [Nat.min_eq_right h]

theorem elements_entries (hsize : 0 < size)
    (hitem : ∀ i < b, (item i).elements = (List.range' i (min b (i + size) - i)).map f) :
    (entries item size b n i).flatMap elements =
      (List.range' i (min b (i + n * size) - i)).map f := by
  induction n generalizing i with
  | zero => simp [entries]
  | succ n ih =>
    rw [entries, Nat.succ_mul]
    by_cases hi : i < b
    · rw [if_pos hi, List.flatMap_cons, hitem i hi, ih, ← List.map_append]
      congr 1
      rcases Nat.le_total b (i + size) with hb | hb
      · rw [Nat.min_eq_left hb, Nat.min_eq_left (by omega), Nat.min_eq_left (by omega),
          Nat.sub_eq_zero_of_le hb, List.range'_zero, List.append_nil]
      · rw [Nat.min_eq_right hb]
        have hsplit := @List.range'_append_1 i size (min b (i + size + n * size) - (i + size))
        have hlength : i + size - i = size := by omega
        have htotal : min b (i + (n * size + size)) - i =
            size + (min b (i + size + n * size) - (i + size)) := by omega
        rw [hlength, htotal, hsplit]
    · have hzero : min b (i + (n * size + size)) - i = 0 := by omega
      rw [if_neg hi, hzero]
      simp [elements]

/-- By induction on the shape, as all that follows on framed elements: what holds of
the items of a level is carried through its entries. -/
theorem elements_framed (hshape : 0 ∉ shape) (hi : i < b ∨ shape ≠ []) :
    (framed f b shape i).elements = (List.range' i (min b (i + shape.prod) - i)).map f := by
  induction shape generalizing i with
  | nil =>
    have hone : min b (i + 1) - i = 1 := by
      have := hi.resolve_right fun h => h rfl
      omega
    rw [framed, elements, List.prod_nil, hone]
    rfl
  | cons n shape ih =>
    obtain ⟨-, hshape⟩ : 0 ≠ n ∧ 0 ∉ shape := by simpa using hshape
    have hsize : 0 < shape.prod := Nat.pos_of_ne_zero fun h => hshape (List.prod_eq_zero_iff.mp h)
    rw [framed, elements, List.prod_cons]
    exact elements_entries hsize fun i hi => ih hshape (.inl hi)

theorem getElem?_entries {k : Nat} (hk : k < n) (hb : i + k * size < b) :
    (entries item size b n i)[k]? = some (item (i + k * size)) := by
  induction n generalizing i k with
  | zero => omega
  | succ n ih =>
    have hi : i < b := by omega
    rw [entries, if_pos hi]
    cases k with
    | zero => simp
    | succ k =>
      rw [Nat.succ_mul] at hb ⊢
      rw [List.getElem?_cons_succ, ih (by omega) (by omega)]
      congr 2
      omega

theorem at?_framed {j : Nat} (hj : j < shape.prod) (hb : i + j < b) :
    (framed f b shape i).at? (Shape.index shape j) = some (.scalar (f (i + j))) := by
  induction shape generalizing i j with
  | nil =>
    obtain rfl : j = 0 := by simpa using hj
    rfl
  | cons n shape ih =>
    rw [List.prod_cons] at hj
    have hsize : 0 < shape.prod := Nat.pos_of_mul_pos_left (Nat.zero_lt_of_lt hj)
    have hrow : j / shape.prod < n := Nat.div_lt_of_lt_mul (by rwa [Nat.mul_comm])
    have hdiv : j / shape.prod * shape.prod + j % shape.prod = j := Nat.div_add_mod' j shape.prod
    have hentry := @getElem?_entries (framed f b shape) shape.prod b n i _ hrow (by omega)
    rw [framed, Shape.index, at?, hentry, Option.bind_some,
      ih (Nat.mod_lt j hsize) (by omega), Nat.add_assoc, hdiv]

theorem hasCut_entries (hsize : 0 < size) (hi : i ≤ b)
    (hitem : ∀ i < b, (item i).HasCut ↔ b < i + size) :
    (∃ c ∈ entries item size b n i, c.HasCut) ↔ b < i + n * size := by
  induction n generalizing i with
  | zero => simp [entries, hi]
  | succ n ih =>
    rw [entries, Nat.succ_mul]
    by_cases hlt : i < b
    · rw [if_pos hlt]
      simp only [List.mem_cons, exists_eq_or_imp, hitem i hlt]
      by_cases hb : b < i + size
      · simp only [hb, true_or, true_iff]
        omega
      · rw [ih (Nat.not_lt.mp hb)]
        omega
    · rw [if_neg hlt]
      simp only [List.mem_singleton, exists_eq_left, HasCut.cut, true_iff]
      omega

theorem hasCut_framed (hshape : 0 ∉ shape) (hi : i < b ∨ shape ≠ [] ∧ i ≤ b) :
    (framed f b shape i).HasCut ↔ b < i + shape.prod := by
  induction shape generalizing i with
  | nil =>
    have hlt : i < b := hi.resolve_right fun h => h.1 rfl
    rw [framed, List.prod_nil]
    constructor
    · rintro ⟨⟩
    · omega
  | cons n shape ih =>
    obtain ⟨-, hshape⟩ : 0 ≠ n ∧ 0 ∉ shape := by simpa using hshape
    have hsize : 0 < shape.prod := Nat.pos_of_ne_zero fun h => hshape (List.prod_eq_zero_iff.mp h)
    rw [framed, hasCut_array_iff, List.prod_cons]
    exact hasCut_entries hsize (by omega) fun i hi => ih hshape (.inl hi)

theorem trimmed_entries (hitem : ∀ i < b, (item i).Trimmed) :
    ∃ items, (∀ c ∈ items, c.Trimmed) ∧
      (entries item size b n i = items ∨ entries item size b n i = items ++ [.cut]) := by
  induction n generalizing i with
  | zero => exact ⟨[], by simp, .inl rfl⟩
  | succ n ih =>
    rw [entries]
    by_cases hi : i < b
    · obtain ⟨items, hitems, h⟩ := @ih (i + size)
      refine ⟨item i :: items, List.forall_mem_cons.mpr ⟨hitem i hi, hitems⟩, ?_⟩
      rw [if_pos hi]
      exact h.imp (congrArg (item i :: ·)) (congrArg (item i :: ·))
    · exact ⟨[], by simp, .inr (if_neg hi)⟩

theorem trimmed_framed : (framed f b shape i).Trimmed := by
  induction shape generalizing i with
  | nil => exact .scalar _
  | cons n shape ih =>
    obtain ⟨items, hitems, h | h⟩ :=
      @trimmed_entries (framed f b shape) shape.prod b n i fun _ _ => ih
    · rw [framed, h]
      exact .full hitems
    · rw [framed, h]
      exact .short hitems

/-- Where the smaller budget cuts a level off, the larger one shows an item or cuts it off too. -/
theorem entries_refine (hb : b ≤ b') (hitem : ∀ i < b, (item i).Refines (item' i)) :
    ItemsRefine (entries item size b n i) (entries item' size b' n i) := by
  induction n generalizing i with
  | zero => exact .nil
  | succ n ih =>
    rw [entries, entries]
    by_cases hi : i < b
    · rw [if_pos hi, if_pos (Nat.lt_of_lt_of_le hi hb)]
      exact .cons (hitem i hi) ih
    · rw [if_neg hi]
      split
      · exact .cut _ _
      · exact .cut _ _

theorem framed_refine (hb : b ≤ b') : (framed f b shape i).Refines (framed f b' shape i) := by
  induction shape generalizing i with
  | nil => exact .scalar _
  | cons n shape ih => exact .array (entries_refine hb fun _ _ => ih)

end

end Content

def Progress.before (width : Nat) (data : Bytes) (budget i : Nat) : Progress :=
  ⟨⟨width * i, data.drop (width * i)⟩, budget - i⟩

section
variable {t : ElementType} {f : Bytes → Scalar} {g : Nat → Content} {data : Bytes}
  {width size b i n : Nat} {c : Content} {p : Progress} {shape : List Nat} {done : List Content}
  {item : Progress → Except TensorError (Content × Progress)}

theorem take_before (hwidth : 0 < width) :
    Cursor.take width ⟨width * i, data.drop (width * i)⟩ =
      if width * (i + 1) ≤ data.length then
        .ok (bytesAt width data i, ⟨width * (i + 1), data.drop (width * (i + 1))⟩)
      else .error ⟨width * i, width, data.length - width * i⟩ := by
  have hlength : (data.drop (width * i)).length = data.length - width * i := List.length_drop
  rw [Nat.mul_succ]
  by_cases h : width * i + width ≤ data.length
  · rw [if_pos h, Cursor.take_eq_ok_iff, ← List.drop_drop]
    refine ⟨(List.take_append_drop width _).symm, ?_, rfl⟩
    rw [bytesAt, List.length_take, hlength]
    omega
  · rw [if_neg h, Cursor.take_error (by rw [Cursor.size, hlength]; omega), Cursor.size, hlength]

theorem element_before (hf : decoder? t = some f) :
    element t (.before t.itemSize data b i) = .ok (c, p) ↔
      t.itemSize * (i + 1) ≤ data.length ∧ c = .scalar (f (bytesAt t.itemSize data i)) ∧
        p = .before t.itemSize data b (i + 1) := by
  have hread : readScalar t = some (f <$> Cursor.take t.itemSize) := by
    rw [readScalar_eq, hf]
    rfl
  have htake := @take_before data t.itemSize i (itemSize_pos hf)
  rw [element, hread, Progress.before]
  simp only [Functor.map, StateT.map, htake]
  by_cases h : t.itemSize * (i + 1) ≤ data.length
  · have hbudget : b - i - 1 = b - (i + 1) := by omega
    simp [h, Progress.before, hbudget, bind, Except.bind, pure, Except.pure, eq_comm]
  · simp [h, bind, Except.bind]

def Shows (item : Progress → Except TensorError (Content × Progress)) (g : Nat → Content)
    (width size : Nat) (data : Bytes) (b i : Nat) : Prop :=
  ∀ c p, item (.before width data b i) = .ok (c, p) ↔
    width * min b (i + size) ≤ data.length ∧ c = g i ∧
      p = .before width data b (min b (i + size))

theorem items_before
    (hitem : ∀ i < b, width * i ≤ data.length → Shows item g width size data b i)
    (hi : i ≤ b) (hlength : width * i ≤ data.length) :
    items item n done (.before width data b i) = .ok (c, p) ↔
      width * min b (i + n * size) ≤ data.length ∧
        c = .array (done.reverse ++ Content.entries g size b n i) ∧
        p = .before width data b (min b (i + n * size)) := by
  induction n generalizing i done with
  | zero =>
    rw [items, Nat.zero_mul, Nat.add_zero, Nat.min_eq_right hi]
    simp [Content.entries, hlength, eq_comm]
  | succ n ih =>
    have hbudget : (Progress.before width data b i).budget = b - i := rfl
    rw [items, Content.entries, hbudget, Nat.succ_mul]
    by_cases hlt : i < b
    · have hnonzero : b - i ≠ 0 := by omega
      have hmin : min b (i + (n * size + size)) = min b (min b (i + size) + n * size) := by omega
      rw [if_neg hnonzero, if_pos hlt, hmin]
      have hmono : width * min b (i + size) ≤ width * min b (min b (i + size) + n * size) :=
        Nat.mul_le_mul_left width (by omega)
      cases hresult : item (.before width data b i) with
      | error e =>
        -- the bytes that this item lacks the whole level lacks too
        have hmissing : ¬ width * min b (i + size) ≤ data.length := by
          intro hreach
          have hok := (hitem i hlt hlength _ _).mpr ⟨hreach, rfl, rfl⟩
          rw [hresult] at hok
          cases hok
        constructor
        · rintro ⟨⟩
        · rintro ⟨hreach, -⟩
          exact absurd (hmono.trans hreach) hmissing
      | ok r =>
        obtain ⟨hreach, hc, hp⟩ := (hitem i hlt hlength r.1 r.2).mp hresult
        dsimp only
        rw [hp, ih (Nat.min_le_left _ _) hreach, Content.entries_min, hc, List.reverse_cons,
          List.append_assoc]
        rfl
    · -- the budget is used up exactly here
      obtain rfl : i = b := by omega
      simp [hlength, eq_comm]

theorem level_before (hf : decoder? t = some f) (hshape : 0 ∉ shape)
    (hi : i < b ∨ shape ≠ [] ∧ i ≤ b) (hlength : t.itemSize * i ≤ data.length) :
    Shows (level t shape) (Content.framed (f ∘ bytesAt t.itemSize data) b shape) t.itemSize
      shape.prod data b i := by
  induction shape generalizing i with
  | nil =>
    have hlt : i < b := hi.resolve_right fun h => h.1 rfl
    intro c p
    have hmin : min b (i + 1) = i + 1 := Nat.min_eq_right hlt
    rw [level, List.prod_nil, hmin]
    exact element_before hf
  | cons n shape ih =>
    obtain ⟨-, hshape⟩ : 0 ≠ n ∧ 0 ∉ shape := by simpa using hshape
    intro c p
    rw [level, List.prod_cons]
    exact items_before (fun i hi => ih hshape (.inl hi)) (by omega) hlength

theorem level_start (hf : decoder? t = some f) (hshape : 0 ∉ shape) (hb : 0 < b ∨ shape ≠ []) :
    level t shape ⟨.ofBytes data, b⟩ = .ok (c, p) ↔
      t.itemSize * min b shape.prod ≤ data.length ∧
        c = Content.framed (f ∘ bytesAt t.itemSize data) b shape 0 ∧
        p = .before t.itemSize data b (min b shape.prod) := by
  have hlevel := @level_before t f data b 0 shape hf hshape
    (hb.imp_right fun h => ⟨h, Nat.zero_le b⟩) (Nat.zero_le _) c p
  rw [Nat.zero_add] at hlevel
  exact hlevel

/-- The elements shown are those of the payload, whatever the budget leaves of them. -/
theorem decode_framed {t : TensorType} {v : Content} (hshape : 0 ∉ t.shape)
    (hf : decoder? t.elementType = some f) (h : decode t data b = .ok v) :
    (t.shape = [] ∧ b = 0 ∧ v = .cut) ∨
      (0 < b ∨ t.shape ≠ []) ∧ t.elementType.itemSize * min b t.shape.prod ≤ data.length ∧
        v = Content.framed (f ∘ bytesAt t.elementType.itemSize data) b t.shape 0 := by
  refine (decode_cases h).imp_right ?_
  rintro ⟨hb, p, hl⟩
  obtain ⟨hreach, hv, -⟩ := (level_start hf hshape hb).mp hl
  exact ⟨hb, hreach, hv⟩

end

structure Showing (t : TensorType) (data : Bytes) (b : Nat) (v : Content) : Prop where
  elements : v.elements.map some = (List.range (min b t.shape.prod)).map (element? t data)
  present : t.elementType.itemSize * min b t.shape.prod ≤ data.length
  placed : ∀ i < min b t.shape.prod, ∃ s, element? t data i = some s ∧
    v.at? (Shape.index t.shape i) = some (.scalar s)
  cut : v.HasCut ↔ b < t.shape.prod
  trimmed : v.Trimmed ∨ t.shape = [] ∧ v = .cut
  refined : ∀ b' v', b ≤ b' → decode t data b' = .ok v' → v.Refines v'

/-- Where no dimension is empty, the elements within the budget are shown, each from
its own bytes at its own place. Something is cut exactly where there are more, at the
ends of arrays alone, and a larger budget only replaces what is cut. -/
theorem decode_shows {t : TensorType} {data : Bytes} {b : Nat} {v : Content}
    (hcount : 0 < t.shape.prod) (h : decode t data b = .ok v) : Showing t data b v := by
  have hshape : 0 ∉ t.shape := fun hmem => Nat.ne_of_gt hcount (List.prod_eq_zero hmem)
  obtain ⟨⟨⟩, hcheck, -⟩ := Except.bind_ok h
  obtain ⟨-, -, ⟨f, hf⟩, -⟩ := check_eq_ok_iff.mp hcheck
  rcases decode_framed hshape hf h with ⟨hs, rfl, rfl⟩ | ⟨hb, hreach, rfl⟩
  · constructor
    · simp [Content.elements]
    · simp
    · simp
    · simp [Content.HasCut.cut, hs]
    · exact .inr ⟨hs, rfl⟩
    · exact fun _ v' _ _ => .cut v'
  · constructor
    · rw [Content.elements_framed hshape hb, Nat.zero_add, Nat.sub_zero, List.map_map,
        List.range_eq_range']
      apply List.map_congr_left
      intro i _
      rw [element?, hf]
      rfl
    · exact hreach
    · intro i hi
      have hat := @Content.at?_framed b 0 (f ∘ bytesAt t.elementType.itemSize data) t.shape i
        (by omega) (by omega)
      rw [Nat.zero_add] at hat
      exact ⟨_, by rw [element?, hf]; rfl, hat⟩
    · rw [Content.hasCut_framed hshape (hb.imp_right fun hne => ⟨hne, Nat.zero_le b⟩), Nat.zero_add]
    · exact .inl Content.trimmed_framed
    · intro b' v' hle h'
      rcases decode_framed hshape hf h' with ⟨hs, rfl, -⟩ | ⟨-, -, rfl⟩
      · have hzero : ¬ 0 < b := Nat.not_lt.mpr hle
        exact absurd hs (hb.resolve_left hzero)
      · exact Content.framed_refine hle

/-- Two rows of two, of which the budget leaves out the last element. -/
theorem decode_shows_rows :
    0 < [2, 2].prod ∧
      decode ⟨.int32, [2, 2]⟩ [1, 0, 0, 0, 2, 0, 0, 0, 3, 0, 0, 0, 4, 0, 0, 0] 3 =
        .ok (.array [.array [.scalar (.int32 1), .scalar (.int32 2)],
          .array [.scalar (.int32 3), .cut]]) ∧
      Showing ⟨.int32, [2, 2]⟩ [1, 0, 0, 0, 2, 0, 0, 0, 3, 0, 0, 0, 4, 0, 0, 0] 3
        (.array [.array [.scalar (.int32 1), .scalar (.int32 2)],
          .array [.scalar (.int32 3), .cut]]) := by
  have h : decode ⟨.int32, [2, 2]⟩ [1, 0, 0, 0, 2, 0, 0, 0, 3, 0, 0, 0, 4, 0, 0, 0] 3 =
      .ok (.array [.array [.scalar (.int32 1), .scalar (.int32 2)],
        .array [.scalar (.int32 3), .cut]]) := by cbv
  exact ⟨by decide, h, decode_shows (by decide) h⟩

end Tensor
end PickledModel
