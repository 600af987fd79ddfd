import PickledModel.Proofs.Tensor.Elements
import PickledModel.Proofs.Tensor.Layouts

/-! What can be decoded. The check before the first element settles it for every
budget: a payload that passes has the bytes of every element, so no read fails
behind it. It passes where the payload is as long as the elements make, unless the
dimensions before the first empty one leave a word: their product is taken from
left to right, so it matters where the empty dimension stands. -/

set_option autoImplicit false

namespace PickledModel

namespace Shape

def leading (shape : List Nat) : Nat := (shape.takeWhile (· ≠ 0)).prod

theorem leading_zero (shape : List Nat) : leading (0 :: shape) = 1 := rfl

theorem leading_cons {d : Nat} (hd : d ≠ 0) (shape : List Nat) :
    leading (d :: shape) = d * leading shape := by
  simp [leading, hd]

theorem leading_pos (shape : List Nat) : 0 < leading shape := by
  apply List.prod_pos_iff_forall_pos_nat.mpr
  intro n hn
  have hne := List.mem_takeWhile_imp hn
  simpa [Nat.pos_iff_ne_zero] using hne

/-- An empty dimension ends the growth of a product; up to there it has to stay within a word. -/
theorem product?_eq_ite {factor : Nat} (hfactor : factor < 2 ^ 64) (shape : List Nat) :
    product? factor shape =
      if factor * leading shape < 2 ^ 64 then some (factor * shape.prod) else none := by
  induction shape generalizing factor with
  | nil =>
    have hone : factor * leading [] = factor := Nat.mul_one factor
    rw [hone, if_pos hfactor, List.prod_nil, Nat.mul_one]
    rfl
  | cons d shape ih =>
    rw [product?_cons, List.prod_cons]
    by_cases hd : d = 0
    · have hzero : 0 * leading shape < 2 ^ 64 := by simp
      rw [hd, Nat.mul_zero, if_pos (by decide), ih (by decide), if_pos hzero, leading_zero,
        Nat.mul_one, if_pos hfactor, Nat.zero_mul, Nat.mul_zero]
    · rw [leading_cons hd, ← Nat.mul_assoc, ← Nat.mul_assoc]
      by_cases hword : factor * d < 2 ^ 64
      · rw [if_pos hword, ih hword]
      · have hle : factor * d ≤ factor * d * leading shape :=
          Nat.le_mul_of_pos_right _ (leading_pos shape)
        rw [if_neg hword, if_neg (by omega)]

theorem count?_eq_ite (shape : List Nat) :
    count? shape = if leading shape < 2 ^ 64 then some shape.prod else none := by
  rw [count?, product?_eq_ite (by decide), Nat.one_mul, Nat.one_mul]

end Shape

namespace Tensor

section
variable {t : TensorType} {data : Bytes} {b : Nat}

theorem needed_le_iff (hlength : data.length < 2 ^ 64 - 1) :
    needed t ≤ data.length ↔
      ∃ n, Shape.count? t.shape = some n ∧ t.elementType.itemSize * n ≤ data.length := by
  rw [needed]
  cases Shape.count? t.shape with
  | none => simpa using hlength
  | some n =>
    rw [Option.bind_some, Nat.mul_comm]
    by_cases hword : t.elementType.itemSize * n < 2 ^ 64
    · simp only [if_pos hword, Option.getD_some, Option.some.injEq, exists_eq_left']
    · have hlong : ¬ t.elementType.itemSize * n ≤ data.length := by omega
      simp only [if_neg hword, Option.getD_none, Option.some.injEq, exists_eq_left']
      exact iff_of_false (by omega) hlong

/-- A payload that passes the check has the bytes of all elements. -/
theorem reach_of_check (hlength : data.length < 2 ^ 64 - 1) (h : check t data = .ok ()) :
    (∃ f, decoder? t.elementType = some f) ∧ t.elementType.itemSize * t.shape.prod ≤ data.length := by
  obtain ⟨-, -, hf, hneeded⟩ := check_eq_ok_iff.mp h
  obtain ⟨n, hcount, hreach⟩ := (needed_le_iff hlength).mp hneeded
  rw [Shape.product?_eq_prod hcount, Nat.one_mul] at hreach
  exact ⟨hf, hreach⟩

/-- Where nothing may be shown nothing is read. -/
theorem level_unread (e : ElementType) {shape : List Nat} {p : Progress} (hshape : shape ≠ [])
    (hp : p.budget = 0) : ∃ r, level e shape p = .ok r := by
  cases shape with
  | nil => exact absurd rfl hshape
  | cons n shape =>
    rw [level]
    cases n with
    | zero => exact ⟨_, rfl⟩
    | succ n => exact ⟨_, by rw [items, if_pos hp]⟩

theorem level_reads {f : Bytes → Scalar} (hf : decoder? t.elementType = some f)
    (hreach : t.elementType.itemSize * t.shape.prod ≤ data.length) (hb : 0 < b ∨ t.shape ≠ []) :
    ∃ r, level t.elementType t.shape ⟨.ofBytes data, b⟩ = .ok r := by
  by_cases hempty : 0 ∈ t.shape
  · rcases Nat.eq_zero_or_pos b with hzero | hpos
    · exact level_unread _ (List.ne_nil_of_mem hempty) hzero
    · exact ⟨_, level_hollow _ hempty hpos⟩
  · have hmin : t.elementType.itemSize * min b t.shape.prod ≤ data.length :=
      (Nat.mul_le_mul_left _ (Nat.min_le_right _ _)).trans hreach
    exact ⟨(_, _), (level_start hf hempty hb).mpr ⟨hmin, rfl, rfl⟩⟩

/-- Decoding ends the same way under every budget: with the error of the check, or
with a content. Then no element fails for want of bytes or of a decoder, as the error
of an element is the error of all levels around it. -/
inductive Settled (t : TensorType) (data : Bytes) : Prop where
  | failed (e : TensorError) (hcheck : check t data = .error e)
      (hdecode : ∀ b, decode t data b = .error e)
  | decoded (hcheck : check t data = .ok ()) (hdecode : ∀ b, ∃ v, decode t data b = .ok v)
      (hread : ∀ b, 0 < b ∨ t.shape ≠ [] →
        ∃ r, level t.elementType t.shape ⟨.ofBytes data, b⟩ = .ok r)

theorem settled (t : TensorType) (hlength : data.length < 2 ^ 64 - 1) : Settled t data := by
  cases hcheck : check t data with
  | error e =>
    refine .failed e hcheck fun b => ?_
    rw [decode, hcheck]
    rfl
  | ok u =>
    obtain ⟨⟨f, hf⟩, hreach⟩ := reach_of_check hlength hcheck
    have hread := fun b => @level_reads t data b f hf hreach
    refine .decoded hcheck (fun b => ?_) hread
    rw [decode, hcheck]
    by_cases hs : t.shape = [] ∧ b = 0
    · exact ⟨.cut, if_pos hs⟩
    · have hb : 0 < b ∨ t.shape ≠ [] := by
        rw [Nat.pos_iff_ne_zero]
        tauto
      obtain ⟨r, hr⟩ := hread b hb
      exact ⟨r.1, by simp [hs, hr, bind, Except.bind, pure, Except.pure]⟩

theorem Settled.decode_ok_iff (h : Settled t data) :
    (∃ v, decode t data b = .ok v) ↔ check t data = .ok () := by
  cases h with
  | failed e hcheck hdecode => simp [hcheck, hdecode]
  | decoded hcheck hdecode hread => simp [hcheck, hdecode]

end

end Tensor

inductive Initializer.Settled (x : Initializer) : Prop where
  | failed (e : TensorError) (hstate : x.state? = some e) (hvalue : x.value = .error e)
      (hpreview : x.preview = .error e)
  | shown (v : Tensor.Content) (s : String) (hstate : x.state? = none) (hvalue : x.value = .ok v)
      (hpreview : x.preview = .ok s)

theorem Initializer.decode_of_decodable {x : Initializer} {t : TensorType}
    (h : x.decodable = .ok t) : ∃ v, Tensor.decode t x.data 0 = .ok v := by
  rw [decodable] at h
  cases htype : x.type with
  | none =>
    rw [htype] at h
    cases h
  | some type =>
    rw [htype] at h
    dsimp only at h
    split at h
    · cases h
    · obtain ⟨v, hv, rfl⟩ := Except.map_ok h
      exact ⟨v, hv⟩

/-- Decoding nothing first only checks the payload, which decoding does itself. -/
theorem Initializer.value_eq {x : Initializer} {t : TensorType} (h : x.type = some t) :
    x.value = if x.bigEndian then .error .bigEndian
      else Tensor.decode t x.data (2 ^ 64 - 1) := by
  have hdecodable : x.decodable = if x.bigEndian then .error .bigEndian
      else (fun _ => t) <$> Tensor.decode t x.data 0 := by
    rw [decodable, h]
  rw [value, hdecodable]
  by_cases hbig : x.bigEndian = true
  · rw [if_pos hbig, if_pos hbig]
    rfl
  · rw [if_neg hbig, if_neg hbig]
    cases hzero : Tensor.decode t x.data 0 with
    | error e =>
      rw [Tensor.decode, Tensor.decode_zero_error hzero]
      rfl
    | ok c => rfl

theorem Initializer.settled_of_decodable_error {x : Initializer} {e : TensorError}
    (h : x.decodable = .error e) : x.Settled := by
  apply Settled.failed e
  · rw [state?, h]
  · rw [value, h]
    rfl
  · rw [preview, h]
    rfl

theorem Initializer.settled_of_decodable {x : Initializer} {t : TensorType}
    (h : x.decodable = .ok t) (hdecode : ∀ b, ∃ v, Tensor.decode t x.data b = .ok v) :
    x.Settled := by
  obtain ⟨v, hv⟩ := hdecode (2 ^ 64 - 1)
  obtain ⟨c, hc⟩ := hdecode x.previewBudget
  have hpreview : ∃ s, x.preview = .ok s := by
    rw [preview, h]
    simp only [bind, Except.bind, hc]
    split
    · exact ⟨_, rfl⟩
    · exact ⟨_, rfl⟩
    · exact ⟨_, rfl⟩
  obtain ⟨s, hs⟩ := hpreview
  refine .shown v s ?_ ?_ hs
  · rw [state?, h]
  · rw [value, h]
    exact hv

namespace Tensor

/-- Whether a payload can be decoded does not depend on the budget, nor does the error
if it cannot, and the same holds of the three views of any tensor of that payload. -/
theorem decodability_settled {data : Bytes} (hlength : data.length < 2 ^ 63) :
    (∀ t, Settled t data) ∧ ∀ x : Initializer, x.data = data → x.Settled := by
  have hsettled : ∀ t, Settled t data := fun t => settled t (by omega)
  refine ⟨hsettled, ?_⟩
  rintro x rfl
  cases hx : x.decodable with
  | error e => exact Initializer.settled_of_decodable_error hx
  | ok t =>
    apply Initializer.settled_of_decodable hx
    have hzero : ∃ v, decode t x.data 0 = .ok v := Initializer.decode_of_decodable hx
    cases hsettled t with
    | failed e hcheck hdecode =>
      obtain ⟨v, hv⟩ := hzero
      rw [hdecode] at hv
      cases hv
    | decoded hcheck hdecode hread => exact hdecode

/-- A row of two integers, as a payload and as a tensor. -/
theorem decodability_settled_row :
    Settled ⟨.int32, [2]⟩ [1, 0, 0, 0, 2, 0, 0, 0] ∧
      Initializer.Settled
        ⟨"coef", .inlined, some ⟨.int32, [2]⟩, [1, 0, 0, 0, 2, 0, 0, 0], false, 1⟩ := by
  have h := @decodability_settled [1, 0, 0, 0, 2, 0, 0, 0] (by decide)
  exact ⟨h.1 _, h.2 _ rfl⟩

end Tensor

namespace Process

variable {σ τ α β : Type}

def Starves (p : Process σ α) : Prop := ∀ s e, (p.start s).1 = .error e → ∃ m, e = .shortage m

namespace Starves

theorem bind {p : Process σ α} {f : α → Process σ β} (hp : p.Starves) (hf : ∀ a, (f a).Starves) :
    (p >>= f).Starves := by
  intro s e h
  rw [start_bind] at h
  have hstop := hp s
  rcases hr : p.start s with ⟨e' | a, t⟩
  · rw [hr] at h hstop
    exact hstop e (by simpa using h)
  · rw [hr] at h
    exact hf a t e h

theorem read (r : Read α) : (Process.read r).Starves := by
  intro c e h
  cases hr : r c with
  | ok v =>
    rw [start_read_ok hr] at h
    cases h
  | error m =>
    rw [start_read_error hr] at h
    cases h
    exact ⟨m, rfl⟩

theorem modify (f : σ → σ) : (modify f : Process σ PUnit).Starves := by
  rintro s e ⟨⟩

theorem onSecond {p : Process τ α} (h : p.Starves) :
    (Process.onSecond p : Process (σ × τ) α).Starves :=
  fun s e he => h s.2 e he

end Starves

end Process

namespace ArrayBody
open Process

section
variable {typeName : String} {state : Value} {d : Descriptor Value} {shape : List Nat}
  {a : ArrayBody Value} {c : Cursor}

theorem skipPadding_starves : skipPadding.Starves :=
  (Starves.read _).bind fun _ => .read _

/-- Once the size is known, only bytes can be missing. -/
theorem restore_overflow_iff (hlayout : a.layout = .wrapped) (hs : Describes state d shape)
    (hshape : shape.length ≤ maxDimensions) (hword : d.elementType.itemSize < 2 ^ 64) :
    ((restore typeName state).start (a, c)).1 =
        .error (.malformedState typeName .payloadOverflow) ↔
      2 ^ 64 ≤ d.elementType.itemSize * Shape.leading shape := by
  have hkind : ¬ state.kind ≠ .dict := fun hne => hne hs.dict
  rw [restore, start_bind, start_get]
  simp only [hlayout]
  rw [restoreWrapped]
  simp only [hkind, if_false, expectDescriptor_of_some hs.descriptor,
    expectShape_of_some hs.shape hshape, Shape.product?_eq_ite hword, start_bind, start_ofExcept,
    start_modify]
  by_cases hsize : d.elementType.itemSize * Shape.leading shape < 2 ^ 64
  · refine iff_of_false ?_ (Nat.not_le.mpr hsize)
    rw [if_pos hsize]
    intro h
    have hdata : (do
        let data ← onSecond (Process.read (Cursor.take (d.elementType.itemSize * shape.prod)))
        modify fun s => ({ s.1 with data, descriptor := some d, shape }, s.2) :
          Process (ArrayBody Value × Cursor) PUnit).Starves :=
      (Starves.read _).onSecond.bind fun _ => .modify _
    dsimp only at h
    split at h
    · obtain ⟨m, ⟨⟩⟩ := (skipPadding_starves.onSecond.bind fun _ => hdata) _ _ h
    · obtain ⟨m, ⟨⟩⟩ := hdata _ _ h
  · refine iff_of_true ?_ (Nat.not_lt.mp hsize)
    rw [if_neg hsize]
    rfl

end

end ArrayBody

namespace Tensor

theorem count?_eq_zero_iff {shape : List Nat} :
    Shape.count? shape = some 0 ↔ 0 ∈ shape ∧ Shape.leading shape < 2 ^ 64 := by
  rw [Shape.count?_eq_ite, Option.ite_none_right_eq_some, Option.some_inj, List.prod_eq_zero_iff,
    and_comm]

theorem check_ok_iff {t : TensorType} {data : Bytes} (hdims : t.shape.length ≤ maxDimensions)
    (hnumeric : ∀ bits, t.elementType ≠ .void bits) (hlength : data.length < 2 ^ 64 - 1) :
    check t data = .ok () ↔
      t.elementType.itemSize * t.shape.prod ≤ data.length ∧ Shape.leading t.shape < 2 ^ 64 := by
  obtain ⟨f, hf⟩ : ∃ f, decoder? t.elementType = some f := by
    rw [← Option.ne_none_iff_exists', Ne, decoder?_eq_none_iff]
    rintro ⟨bits, h⟩
    exact hnumeric bits h
  rw [check_eq_ok_iff, needed_le_iff hlength, Shape.count?_eq_ite]
  by_cases hword : Shape.leading t.shape < 2 ^ 64
  · rw [if_pos hword]
    have hempty : t.elementType.itemSize * t.shape.prod ≤ data.length →
        data = [] → t.shape.prod = 0 := by
      rintro hreach rfl
      have hprod := Nat.le_zero.mp hreach
      exact (Nat.mul_eq_zero.mp hprod).resolve_left (Nat.ne_of_gt (itemSize_pos hf))
    constructor
    · rintro ⟨-, -, -, n, hn, hreach⟩
      cases hn
      exact ⟨hreach, hword⟩
    · rintro ⟨hreach, -⟩
      exact ⟨hdims, fun h => congrArg some (hempty hreach h), ⟨f, hf⟩, _, rfl, hreach⟩
  · rw [if_neg hword]
    constructor
    · rintro ⟨-, -, -, n, ⟨⟩, -⟩
    · rintro ⟨-, h⟩
      exact absurd h hword

/-- Decoding succeeds exactly where the payload has the bytes of all elements and the
dimensions before the first empty one make a word. The same condition, on bytes
instead of elements, decides whether a wrapped array overflows. -/
theorem decodable_iff_reach {t : TensorType} {data : Bytes} (hdims : t.shape.length ≤ 64)
    (hnumeric : ∀ bits, t.elementType ≠ .void bits) (hlength : data.length < 2 ^ 63) :
    (∀ b, (∃ v, decode t data b = .ok v) ↔
      t.elementType.itemSize * t.shape.prod ≤ data.length ∧ Shape.leading t.shape < 2 ^ 64) ∧
    (Shape.count? t.shape = some 0 ↔ 0 ∈ t.shape ∧ Shape.leading t.shape < 2 ^ 64) ∧
    ∀ (typeName : String) (state : Value) (d : Descriptor Value) (a : ArrayBody Value) (c : Cursor),
      a.layout = .wrapped → ArrayBody.Describes state d t.shape → d.elementType.itemSize < 2 ^ 64 →
      (((ArrayBody.restore typeName state).start (a, c)).1 =
          .error (.malformedState typeName .payloadOverflow) ↔
        2 ^ 64 ≤ d.elementType.itemSize * Shape.leading t.shape) := by
  have hword : data.length < 2 ^ 64 - 1 := by omega
  refine ⟨fun b => ?_, count?_eq_zero_iff, ?_⟩
  · rw [(settled t hword).decode_ok_iff, check_ok_iff hdims hnumeric hword]
  · intro typeName state d a c hlayout hs hsize
    exact ArrayBody.restore_overflow_iff hlayout hs hdims hsize

/-- An empty dimension before all others. -/
theorem decodable_iff_reach_empty :
    (∀ b, (∃ v, decode ⟨.float64, [0, 4]⟩ [] b = .ok v) ↔ 8 * 0 ≤ 0 ∧ 1 < 2 ^ 64) ∧
      Shape.count? [0, 4] = some 0 := by
  have h := @decodable_iff_reach ⟨.float64, [0, 4]⟩ [] (by decide) (by simp) (by decide)
  exact ⟨h.1, h.2.1.mpr (by decide)⟩

/-- No element and no payload: the order of the dimensions decides. -/
theorem huge_before_empty :
    ElementType.int32.itemSize * [2 ^ 63, 2, 0].prod ≤ ([] : Bytes).length ∧
      decode ⟨.int32, [2 ^ 63, 2, 0]⟩ [] 0 = .error .empty ∧
      decode ⟨.int32, [0, 2 ^ 63, 2]⟩ [] 0 = .ok (.array []) := by
  refine ⟨by decide, ?_, ?_⟩
  · cbv
  · cbv

end Tensor

end PickledModel
