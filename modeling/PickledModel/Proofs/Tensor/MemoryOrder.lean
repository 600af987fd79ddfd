import PickledModel.Proofs.Object.Restoration
import PickledModel.Proofs.Tensor.Decodability

/-! Memory order. Both layouts restore the order that a state declares, and the array
keeps it as a text. Nothing that decodes the payload asks for it: each element is taken
from its row-major position, also where the array declares column-major order. The two
positions are the same for each element if at most one dimension exceeds one. -/

set_option autoImplicit false

namespace PickledModel

namespace Shape

/-- The position of a place where the last index runs first. -/
def rowMajor : List Nat → List Nat → Nat
  | _ :: shape, i :: place => i * shape.prod + rowMajor shape place
  | _, _ => 0

/-- The position of a place where the first index runs first. -/
def columnMajor : List Nat → List Nat → Nat
  | n :: shape, i :: place => i + n * columnMajor shape place
  | _, _ => 0

def Contains (shape place : List Nat) : Prop := List.Forall₂ (· < ·) place shape

section
variable {shape place : List Nat} {n i : Nat}

theorem Contains.rowMajor_lt (h : Contains shape place) : rowMajor shape place < shape.prod := by
  induction h with
  | nil => decide
  | @cons i n place shape hi _ ih =>
    rw [rowMajor, List.prod_cons]
    calc i * shape.prod + rowMajor shape place < i * shape.prod + shape.prod := by omega
      _ = (i + 1) * shape.prod := (Nat.succ_mul _ _).symm
      _ ≤ n * shape.prod := Nat.mul_le_mul_right _ hi

/-- The place at the row-major position of a place is that place. -/
theorem Contains.index_rowMajor (h : Contains shape place) :
    index shape (rowMajor shape place) = place := by
  induction h with
  | nil => rfl
  | @cons i n place shape _ h ih =>
    have hlt : rowMajor shape place < shape.prod := Contains.rowMajor_lt h
    have hpos : 0 < shape.prod := Nat.zero_lt_of_lt hlt
    have hrow : (i * shape.prod + rowMajor shape place) / shape.prod = i := by
      rw [Nat.add_comm, Nat.add_mul_div_right _ _ hpos, Nat.div_eq_of_lt hlt, Nat.zero_add]
    have hrest : (i * shape.prod + rowMajor shape place) % shape.prod = rowMajor shape place := by
      rw [Nat.add_comm, Nat.add_mul_mod_self_right, Nat.mod_eq_of_lt hlt]
    rw [rowMajor, index, hrow, hrest, ih]

theorem Contains.columnMajor_lt (h : Contains shape place) :
    columnMajor shape place < shape.prod := by
  induction h with
  | nil => decide
  | @cons i n place shape hi _ ih =>
    rw [columnMajor, List.prod_cons]
    calc i + n * columnMajor shape place < n + n * columnMajor shape place := by omega
      _ = n * (columnMajor shape place + 1) := by rw [Nat.mul_succ, Nat.add_comm]
      _ ≤ n * shape.prod := Nat.mul_le_mul_left _ ih

theorem Contains.zero_notMem (h : Contains shape place) : 0 ∉ shape := by
  intro hzero
  have hlt := h.rowMajor_lt
  rw [List.prod_eq_zero hzero] at hlt
  exact Nat.not_lt_zero _ hlt

/-- The place that comes first in either order. -/
theorem contains_origin (hshape : 0 ∉ shape) : Contains shape (shape.map fun _ => 0) := by
  induction shape with
  | nil => exact .nil
  | cons n shape ih =>
    obtain ⟨hn, hshape⟩ : 0 ≠ n ∧ 0 ∉ shape := by simpa using hshape
    exact .cons (Nat.pos_of_ne_zero hn.symm) (ih hshape)

theorem rowMajor_origin (shape : List Nat) : rowMajor shape (shape.map fun _ => 0) = 0 := by
  induction shape with
  | nil => rfl
  | cons n shape ih => rw [List.map_cons, rowMajor, ih, Nat.zero_mul]

theorem columnMajor_origin (shape : List Nat) : columnMajor shape (shape.map fun _ => 0) = 0 := by
  induction shape with
  | nil => rfl
  | cons n shape ih => rw [List.map_cons, columnMajor, ih, Nat.mul_zero]

theorem leading_eq_prod (hshape : 0 ∉ shape) : leading shape = shape.prod := by
  have hall : shape.takeWhile (· ≠ 0) = shape := by
    rw [List.takeWhile_eq_self_iff]
    intro n hn
    simpa using fun hzero : n = 0 => hshape (hzero ▸ hn)
  rw [leading, hall]

def extended (shape : List Nat) : Nat := shape.countP (1 < ·)

theorem extended_cons_of_lt (h : 1 < n) : extended (n :: shape) = extended shape + 1 :=
  List.countP_cons_of_pos (by simpa using h)

theorem extended_one_cons (shape : List Nat) : extended (1 :: shape) = extended shape :=
  List.countP_cons_of_neg (by decide)

theorem prod_eq_one_iff (hshape : 0 ∉ shape) : shape.prod = 1 ↔ extended shape = 0 := by
  induction shape with
  | nil => simp [extended]
  | cons n shape ih =>
    obtain ⟨hn, hshape⟩ : 0 ≠ n ∧ 0 ∉ shape := by simpa using hshape
    rw [List.prod_cons, mul_eq_one, ih hshape]
    rcases Nat.lt_or_ge 1 n with hlt | hle
    · rw [extended_cons_of_lt hlt]
      omega
    · obtain rfl : n = 1 := by omega
      rw [extended_one_cons]
      omega

theorem Contains.columnMajor_eq (h : Contains shape place) (hshape : extended shape ≤ 1) :
    columnMajor shape place = rowMajor shape place := by
  induction h with
  | nil => rfl
  | @cons i n place shape hi h ih =>
    rw [columnMajor, rowMajor]
    rcases Nat.lt_or_ge 1 n with hlt | hle
    · -- all further dimensions have one index only
      rw [extended_cons_of_lt hlt] at hshape
      have hprod : shape.prod = 1 := (prod_eq_one_iff (Contains.zero_notMem h)).mpr (by omega)
      have hcolumn := Contains.columnMajor_lt h
      have hrow := Contains.rowMajor_lt h
      rw [hprod] at hcolumn hrow ⊢
      rw [Nat.lt_one_iff.mp hcolumn, Nat.lt_one_iff.mp hrow]
      omega
    · obtain rfl : n = 1 := by omega
      obtain rfl : i = 0 := by omega
      rw [extended_one_cons] at hshape
      rw [ih hshape]
      omega

/-- By induction on the shape, up to the first dimension that has a second index: that
index is at the second position of the columns, but behind a whole row. -/
theorem exists_columnMajor_ne (hzero : 0 ∉ shape) (hshape : 1 < extended shape) :
    ∃ place, Contains shape place ∧ columnMajor shape place ≠ rowMajor shape place := by
  induction shape with
  | nil => cases hshape
  | cons n shape ih =>
    obtain ⟨hn, htail⟩ : 0 ≠ n ∧ 0 ∉ shape := by simpa using hzero
    rcases Nat.lt_or_ge 1 n with hlt | hle
    · rw [extended_cons_of_lt hlt] at hshape
      have hprod : shape.prod ≠ 1 := by
        rw [Ne, prod_eq_one_iff htail]
        omega
      refine ⟨1 :: shape.map fun _ => 0, .cons hlt (contains_origin htail), ?_⟩
      rw [columnMajor, rowMajor, columnMajor_origin, rowMajor_origin]
      omega
    · obtain rfl : n = 1 := by omega
      rw [extended_one_cons] at hshape
      obtain ⟨place, hplace, hne⟩ := ih htail hshape
      refine ⟨0 :: place, .cons Nat.one_pos hplace, ?_⟩
      rw [columnMajor, rowMajor]
      omega

/-- The two orders are one where at most one dimension has more than one index. -/
theorem columnMajor_eq_rowMajor_iff :
    (∀ place, Contains shape place → columnMajor shape place = rowMajor shape place) ↔
      0 ∈ shape ∨ extended shape ≤ 1 := by
  constructor
  · intro h
    by_contra hnot
    obtain ⟨hzero, hshape⟩ := not_or.mp hnot
    obtain ⟨place, hplace, hne⟩ := exists_columnMajor_ne hzero (Nat.lt_of_not_le hshape)
    exact hne (h place hplace)
  · rintro (hzero | hshape) place hplace
    · exact absurd hzero hplace.zero_notMem
    · exact hplace.columnMajor_eq hshape

end

end Shape

theorem ElementType.itemSize_pos {t : ElementType} (h : ∀ bits, t ≠ .void bits) :
    0 < t.itemSize := by
  cases t with
  | void bits => exact absurd rfl (h bits)
  | _ => decide

namespace ArrayBody
open Process

/-- The order that a state declares, by its name in a wrapped array and by a flag in an
inlined one. -/
def declaredOrder : ArrayLayout → Value → Option String
  | .wrapped, state => (state.get? "order").bind Value.string?
  | .inlined, state =>
    some (if ((state.items?.bind (·[3]?)).bind Value.bool?).getD false then "F" else "C")

structure Restored (layout : ArrayLayout) (state : Value) (a : ArrayBody Value) : Prop where
  order : a.order = declaredOrder layout state
  described : ∃ d, a.descriptor = some d
  dimensions : a.shape.length ≤ maxDimensions

section
variable {typeName : String} {state : Value} {a a' : ArrayBody Value} {c c' : Cursor}

theorem restoreWrapped_ok (h : (restoreWrapped typeName state).start (a, c) = (.ok (), (a', c'))) :
    Restored .wrapped state a' := by
  obtain ⟨-, d, shape, size, data, -, hshape, -, -, rfl⟩ := restoreWrapped_eq_ok_iff.mp h
  exact ⟨rfl, ⟨d, rfl⟩, expectShape_length_le hshape⟩

theorem restoreInlined_ok (h : (restoreInlined typeName state).start a = (.ok (), a')) :
    Restored .inlined state a' := by
  obtain ⟨version, dims, code, flag, raw, d, shape, data, hitems, -, hshape, -, rfl⟩ :=
    restoreInlined_eq_ok_iff.mp h
  refine ⟨?_, ⟨d, rfl⟩, expectShape_length_le hshape⟩
  rw [declaredOrder, hitems]
  rfl

/-- A restored array keeps the order that its state declares. -/
theorem restore_ok (h : (restore typeName state).start (a, c) = (.ok (), (a', c'))) :
    Restored a.layout state a' := by
  rw [restore, start_bind, start_get] at h
  dsimp only at h
  cases hlayout : a.layout with
  | wrapped =>
    rw [hlayout] at h
    exact restoreWrapped_ok h
  | inlined =>
    rw [hlayout] at h
    obtain ⟨u, hu, hs⟩ := start_on_ok h
    obtain ⟨rfl, -⟩ := Prod.mk.inj hs
    exact restoreInlined_ok hu

/-- A restored array keeps the order that its state declares, and shows its elements in
row-major order whatever that is: at each place the element at the row-major position of
the payload. A payload in column-major order is shown as it was meant in all shapes
where at most one dimension has more than one index, and in no others. -/
theorem memory_order_ignored {d : Descriptor Value}
    (h : (restore typeName state).start (a, c) = (.ok (), (a', c')))
    (hd : a'.descriptor = some d) (hnumeric : ∀ bits, d.elementType ≠ .void bits)
    (hlittle : d.isBigEndian = false)
    (hlength : a'.data.length = d.elementType.itemSize * a'.shape.prod)
    (hword : a'.data.length < 2 ^ 63) (name : String) (budget : Nat) :
    a'.order = declaredOrder a.layout state ∧
    (0 ∉ a'.shape → ∃ v, (Initializer.ofArray name a' budget).value = .ok v) ∧
    (∀ v, (Initializer.ofArray name a' budget).value = .ok v →
      ∀ place, Shape.Contains a'.shape place →
        ∃ s, v.at? place = some (.scalar s) ∧
          Tensor.element? ⟨d.elementType, a'.shape⟩ a'.data (Shape.rowMajor a'.shape place) =
            some s) ∧
    ((∀ place, Shape.Contains a'.shape place →
        Shape.columnMajor a'.shape place = Shape.rowMajor a'.shape place) ↔
      0 ∈ a'.shape ∨ Shape.extended a'.shape ≤ 1) := by
  have hrestored := restore_ok h
  have hvalue : (Initializer.ofArray name a' budget).value =
      Tensor.decode ⟨d.elementType, a'.shape⟩ a'.data (2 ^ 64 - 1) := by
    have htype : (Initializer.ofArray name a' budget).type = some ⟨d.elementType, a'.shape⟩ := by
      rw [Initializer.ofArray, tensorType?, hd]
      rfl
    have hbig : (Initializer.ofArray name a' budget).bigEndian = false := by
      rw [Initializer.ofArray, hd]
      exact hlittle
    rw [Initializer.value_eq htype, hbig]
    rfl
  have hcount : a'.shape.prod ≤ a'.data.length := by
    rw [hlength]
    exact Nat.le_mul_of_pos_left _ (ElementType.itemSize_pos hnumeric)
  refine ⟨hrestored.order, ?_, ?_, Shape.columnMajor_eq_rowMajor_iff⟩
  · intro hshape
    have hbound : a'.data.length < 2 ^ 64 - 1 := by omega
    have hleading : Shape.leading a'.shape < 2 ^ 64 := by
      rw [Shape.leading_eq_prod hshape]
      omega
    rw [hvalue, (Tensor.settled _ hbound).decode_ok_iff,
      Tensor.check_ok_iff hrestored.dimensions hnumeric hbound]
    exact ⟨hlength.ge, hleading⟩
  · intro v hv place hplace
    rw [hvalue] at hv
    have hposition := hplace.rowMajor_lt
    have hshows := Tensor.decode_shows (Nat.zero_lt_of_lt hposition) hv
    obtain ⟨s, helement, hat⟩ := hshows.placed (Shape.rowMajor a'.shape place)
      (Nat.lt_min.mpr ⟨by omega, hposition⟩)
    rw [hplace.index_rowMajor] at hat
    exact ⟨s, hat, helement⟩

end

namespace ColumnOrder

/-- The columns of a square, (1, 2) and (3, 4). -/
def payload : Bytes := [1, 0, 0, 0, 2, 0, 0, 0, 3, 0, 0, 0, 4, 0, 0, 0]

def state : Value :=
  .tuple [.int 1, .ofShape [2, 2], PaddedRow.code, .bool true, .bytes payload]

def square : ArrayBody Value :=
  { make .inlined [] with
    shape := [2, 2]
    version := some 1
    order := some "F"
    data := payload
    descriptor := some PaddedRow.int32 }

theorem restore_state :
    (restore "numpy.ndarray" state).start (make .inlined [], ⟨0, []⟩) =
      (.ok (), (square, ⟨0, []⟩)) :=
  start_restore_inlined rfl rfl (Value.shape?_ofShape (by decide)) (by decide) rfl

end ColumnOrder

theorem memory_order_ignored_square :
    ColumnOrder.square.order = some "F" ∧
      ∃ v, (Initializer.ofArray "coef_" ColumnOrder.square 1).value = .ok v ∧
        v.at? [0, 1] = some (.scalar (.int32 2)) := by
  obtain ⟨-, hvalue, hplaced, -⟩ := memory_order_ignored (d := PaddedRow.int32)
    ColumnOrder.restore_state rfl (by rintro bits ⟨⟩) rfl (by decide) (by decide) "coef_" 1
  obtain ⟨v, hv⟩ := hvalue (by decide)
  obtain ⟨s, hat, helement⟩ := hplaced v hv [0, 1] (.cons (by decide) (.cons (by decide) .nil))
  have htwo : Tensor.element? ⟨.int32, [2, 2]⟩ ColumnOrder.payload 1 = some (.int32 2) := by cbv
  obtain rfl := Option.some.inj (helement.symm.trans htwo)
  exact ⟨rfl, v, hv, hat⟩

/-- The second element of the first row is shown from where the second one of the first
column stands. -/
theorem columns_shown_as_rows :
    (restore "numpy.ndarray" ColumnOrder.state).start (make .inlined [], ⟨0, []⟩) =
        (.ok (), (ColumnOrder.square, ⟨0, []⟩)) ∧
      ColumnOrder.square.order = some "F" ∧
      (Initializer.ofArray "coef_" ColumnOrder.square 1).value =
        .ok (.array [.array [.scalar (.int32 1), .scalar (.int32 2)],
          .array [.scalar (.int32 3), .scalar (.int32 4)]]) ∧
      Tensor.element? ⟨.int32, [2, 2]⟩ ColumnOrder.payload
        (Shape.columnMajor [2, 2] [0, 1]) = some (.int32 3) := by
  refine ⟨ColumnOrder.restore_state, rfl, ?_, ?_⟩
  · cbv
  · cbv

end ArrayBody

end PickledModel
