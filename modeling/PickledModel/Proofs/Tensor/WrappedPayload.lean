import Mathlib
import PickledModel.Model.Initializer
import PickledModel.Proofs.Stream.Reaching

/-! Wrapped arrays hold exactly their payload. The reader takes as many bytes as
the element type and the shape make, multiplied from the size of an element on;
a tensor multiplies the dimensions first, and comes to the same size. So the
tensor of a wrapped array never lacks a type or bytes. -/

set_option autoImplicit false

namespace PickledModel

namespace Shape

theorem product?_cons {factor d : Nat} {shape : List Nat} :
    product? factor (d :: shape) =
      if factor * d < 2 ^ 64 then product? (factor * d) shape else none := by
  rw [product?, List.foldlM_cons]
  split <;> rfl

/-- A product that stays within a word with a factor stays within it without. -/
theorem product?_of_mul {k factor n : Nat} {shape : List Nat} (hk : 0 < k)
    (h : product? (k * factor) shape = some n) :
    ∃ count, product? factor shape = some count ∧ n = k * count := by
  induction shape generalizing factor with
  | nil => exact ⟨factor, rfl, (Option.some.inj h).symm⟩
  | cons d shape ih =>
    rw [product?_cons] at h ⊢
    by_cases hword : k * factor * d < 2 ^ 64
    · have hless : factor * d < 2 ^ 64 := by
        have hle : factor * d ≤ k * (factor * d) := Nat.le_mul_of_pos_left _ hk
        rw [← Nat.mul_assoc] at hle
        omega
      rw [if_pos hword, Nat.mul_assoc] at h
      rw [if_pos hless]
      exact ih h
    · rw [if_neg hword] at h
      cases h

theorem count?_of_product? {size n : Nat} {shape : List Nat} (hsize : 0 < size)
    (h : product? size shape = some n) : ∃ count, count? shape = some count ∧ n = size * count :=
  product?_of_mul hsize (by rwa [Nat.mul_one])

theorem product?_lt {factor n : Nat} {shape : List Nat} (hfactor : factor < 2 ^ 64)
    (h : product? factor shape = some n) : n < 2 ^ 64 := by
  induction shape generalizing factor with
  | nil => exact Option.some.inj h ▸ hfactor
  | cons d shape ih =>
    rw [product?_cons] at h
    by_cases hword : factor * d < 2 ^ 64
    · rw [if_pos hword] at h
      exact ih hword h
    · rw [if_neg hword] at h
      cases h

theorem product?_eq_prod {factor n : Nat} {shape : List Nat} (h : product? factor shape = some n) :
    n = factor * shape.prod := by
  rw [product?_eq h, List.prod_eq_foldl]

end Shape

def ArrayBody.Exact (a : ArrayBody Value) : Prop :=
  a.layout = .wrapped → ∀ d, a.descriptor = some d →
    a.shape.length ≤ maxDimensions ∧
      Shape.product? d.elementType.itemSize a.shape = some a.data.length

namespace ArrayBody
open Process

theorem make_exact (layout : ArrayLayout) (args : List Value) : (make layout args).Exact := by
  intro _ d hd
  cases hd

/-- Restored, once or again and even in part, a wrapped array holds its payload. -/
theorem restore_exact (typeName : String) (state : Value) :
    Keeps (fun s : ArrayBody Value × Cursor => s.1.Exact) (restore typeName state)
      fun _ => True := by
  intro s hs
  refine ⟨?_, fun _ _ => trivial⟩
  have hlayout := (restore_layout typeName state s.1.layout s rfl).1
  rw [restore, start_bind, start_get] at hlayout ⊢
  dsimp only at hlayout ⊢
  cases hl : s.1.layout with
  | wrapped =>
    have hkeeps : Keeps (fun s : ArrayBody Value × Cursor => s.1.Exact)
        (restoreWrapped typeName state) fun _ => True := by
      apply restoreWrapped_keeps
      · exact fun a h => h
      · rintro a d shape data - hshape hsize - - _ ⟨⟩
        exact ⟨hshape, hsize⟩
    exact (hkeeps s hs).1
  | inlined =>
    rw [hl] at hlayout
    intro hwrapped
    rw [hlayout] at hwrapped
    cases hwrapped

end ArrayBody

namespace Value

def Exact : Value → Prop
  | .object _ (.array a) => a.Exact
  | _ => True

theorem exact_stable : Stable Exact := by
  apply Stable.of_arrays
  · intro v hv
    unfold Exact
    split
    · exact absurd rfl (hv _ _)
    · trivial
  · exact fun typeName a state c h => (ArrayBody.restore_exact typeName state (a, c) h).1

end Value

theorem Builder.make_exact {b : Builder} {args : List Value} {body : Body Value}
    (typeName : String) (h : b.make args = .ok body) : (Value.object typeName body).Exact := by
  cases b with
  | descriptor =>
    obtain ⟨d, -, rfl⟩ := Except.map_ok h
    trivial
  | wrappedArray | inlinedArray =>
    obtain rfl := Except.ok.inj h
    exact ArrayBody.make_exact _ args
  | tree | attributes =>
    obtain rfl := Except.ok.inj h
    trivial

theorem Held.exact_upheld : Upheld (Held.Throughout Value.Exact) :=
  Value.exact_stable.upheld (fun typeName _ _ _ h => Builder.make_exact typeName h) fun _ => trivial

namespace Tensor

/-- Under a budget of nothing a payload that passes the check is decoded. -/
theorem decode_zero {t : TensorType} {data : Bytes} (h : check t data = .ok ()) :
    ∃ c, decode t data 0 = .ok c := by
  unfold decode
  rw [h]
  obtain ⟨elementType, shape⟩ := t
  cases shape with
  | nil => exact ⟨.cut, rfl⟩
  | cons n shape =>
    cases n with
    | zero => exact ⟨.array [], rfl⟩
    | succ n => exact ⟨.array [.cut], rfl⟩

theorem decode_zero_error {t : TensorType} {data : Bytes} {e : TensorError}
    (h : decode t data 0 = .error e) : check t data = .error e := by
  cases hc : check t data with
  | ok u =>
    obtain ⟨c, hdecode⟩ := decode_zero hc
    rw [hdecode] at h
    cases h
  | error e' =>
    unfold decode at h
    rw [hc] at h
    cases h
    rfl

/-- A payload of the exact size is decoded, unless it is empty or of records. -/
theorem check_exact {t : TensorType} {data : Bytes} (hshape : t.shape.length ≤ maxDimensions)
    (hsize : Shape.product? t.elementType.itemSize t.shape = some data.length) :
    check t data = .ok () ∨ ∃ bits, t.elementType = .void bits ∧
      (check t data = .error .empty ∨
        check t data = .error (.notImplemented (ElementType.void bits).name)) := by
  unfold check
  rw [if_neg (Nat.not_lt.mpr hshape)]
  by_cases hvoid : ∃ bits, t.elementType = .void bits
  · obtain ⟨bits, hbits⟩ := hvoid
    refine .inr ⟨bits, hbits, ?_⟩
    split
    · exact .inl rfl
    · rw [hbits]
      exact .inr rfl
  · have hpos : 0 < t.elementType.itemSize ∧ t.elementType.itemSize < 2 ^ 64 := by
      cases ht : t.elementType with
      | void bits => exact absurd ⟨bits, ht⟩ hvoid
      | _ => decide
    obtain ⟨count, hcount, hlength⟩ := Shape.count?_of_product? hpos.1 hsize
    have hword := Shape.product?_lt hpos.2 hsize
    have hneeded : needed t = data.length := by
      rw [needed, hcount, Option.bind_some]
      have hcomm : count * t.elementType.itemSize = data.length := by rw [hlength, Nat.mul_comm]
      simp only [hcomm, hword, if_true, Option.getD_some]
    have hfull : ¬ (data.isEmpty = true ∧ Shape.count? t.shape ≠ some 0) := by
      rintro ⟨hempty, hne⟩
      have hnil : data.length = 0 := by rw [List.isEmpty_iff.mp hempty]; rfl
      have hzero : count = 0 := by
        rw [hnil] at hlength
        exact (Nat.mul_eq_zero.mp hlength.symm).resolve_left (Nat.ne_of_gt hpos.1)
      exact hne (hzero ▸ hcount)
    rw [if_neg hfull, hneeded, if_neg (Nat.lt_irrefl _)]
    left
    cases ht : t.elementType with
    | void bits => exact absurd ⟨bits, ht⟩ hvoid
    | _ => rfl

end Tensor

def ElementType.isPlain : ElementType → Bool
  | .int32 | .int64 | .float32 | .float64 => true
  | _ => false

/-- A wrapped array with an element type has at most 64 dimensions and the bytes
of all its elements. A tensor made from it can be decoded if its elements are
little-endian numbers, and never fails for want of a type or of bytes, nor for
its dimensions. -/
structure ArrayBody.Complete (a : ArrayBody Value) (d : Descriptor Value) : Prop where
  dimensions : a.shape.length ≤ 64
  payload : a.data.length = d.elementType.itemSize * a.shape.prod
  decodable : ∀ name budget, d.elementType.isPlain → d.isBigEndian = false →
    (Initializer.ofArray name a budget).state? = none
  failures : ∀ name budget e, (Initializer.ofArray name a budget).state? = some e →
    e = .bigEndian ∨ e = .empty ∨ ∃ typeName, e = .notImplemented typeName

theorem ArrayBody.Exact.complete {a : ArrayBody Value} {d : Descriptor Value} (h : a.Exact)
    (hlayout : a.layout = .wrapped) (hd : a.descriptor = some d) : a.Complete d := by
  obtain ⟨hshape, hsize⟩ := h hlayout d hd
  have hcheck := Tensor.check_exact (t := ⟨d.elementType, a.shape⟩) hshape hsize
  have htype : a.tensorType? = some ⟨d.elementType, a.shape⟩ := by rw [tensorType?, hd]; rfl
  constructor
  · exact hshape
  · exact Shape.product?_eq_prod hsize
  · intro name budget hplain hendian
    have hok : Tensor.check ⟨d.elementType, a.shape⟩ a.data = .ok () := by
      rcases hcheck with hok | ⟨bits, hbits, -⟩
      · exact hok
      · rw [show d.elementType = .void bits from hbits] at hplain
        cases hplain
    obtain ⟨c, hdecode⟩ := Tensor.decode_zero hok
    simp only [Initializer.state?, Initializer.decodable, Initializer.ofArray, htype, hd,
      Option.map_some, Option.getD_some, hendian, Bool.false_eq_true, if_false, hdecode]
    rfl
  · intro name budget e he
    simp only [Initializer.state?, Initializer.decodable, Initializer.ofArray, htype, hd,
      Option.map_some, Option.getD_some] at he
    by_cases hendian : d.isBigEndian = true
    · simp only [hendian, if_true] at he
      exact .inl (Option.some.inj he).symm
    · simp only [hendian] at he
      cases hdecode : Tensor.decode ⟨d.elementType, a.shape⟩ a.data 0 with
      | ok c =>
        rw [hdecode] at he
        cases he
      | error e' =>
        rw [hdecode] at he
        obtain rfl : e' = e := Option.some.inj he
        right
        rw [Tensor.decode_zero_error hdecode] at hcheck
        rcases hcheck with h | ⟨bits, -, h | h⟩
        · cases h
        · exact .inl (Except.error.inj h)
        · exact .inr ⟨_, Except.error.inj h⟩

def Value.Filled : Value → Prop
  | .object _ (.array a) => a.layout = .wrapped → ∀ d, a.descriptor = some d → a.Complete d
  | _ => True

namespace Machine
open Process

/-- Whatever the loads before it gave, and with any registry, a load gives only
wrapped arrays that are complete, at any depth. -/
theorem wrapped_arrays_complete {data : Bytes} {m : Machine} (hm : Reachable data m)
    {r : Registry} {v : Value} (h : (m.load r).1 = .ok v) : v.Throughout Value.Filled := by
  obtain ⟨g, hg, rfl⟩ := hm.load_upholds Held.exact_upheld h
  apply (Value.exact_stable.normalize hg).mono
  intro u hu
  unfold Value.Filled
  split
  · exact fun hlayout d hd => ArrayBody.Exact.complete hu hlayout hd
  · trivial

namespace WrappedPair

/-- An array of two 32-bit integers, its payload behind its state. -/
def stream : Bytes :=
  [0x28, 0x69, 0x61, 0x0a, 0x57, 0x0a, 0x7d, 0x28, 0x55, 0x05, 0x64, 0x74, 0x79, 0x70, 0x65,
    0x28, 0x55, 0x02, 0x69, 0x34, 0x69, 0x6e, 0x75, 0x6d, 0x70, 0x79, 0x0a, 0x64, 0x74, 0x79,
    0x70, 0x65, 0x0a, 0x55, 0x05, 0x73, 0x68, 0x61, 0x70, 0x65, 0x4b, 0x02, 0x85, 0x75, 0x62,
    0x01, 0x00, 0x00, 0x00, 0x02, 0x00, 0x00, 0x00, 0x2e]

def registry : Registry :=
  (Registry.empty.register "a.W" .wrappedArray).register descriptorTypeName .descriptor

def int32 : Value := .object descriptorTypeName (.descriptor ⟨.int32, .none, .none, none⟩)

def state : List (Value × Value) := [(.str "dtype", int32), (.str "shape", .tuple [.int 2])]

def unfilled : Value := .object "a.W" (.array (.make .wrapped []))

def filled : Value :=
  .object "a.W" (.array ⟨.wrapped, .none, some ⟨.int32, .none, .none, none⟩, [2], none, none, none,
    [0x01, 0x00, 0x00, 0x00, 0x02, 0x00, 0x00, 0x00]⟩)

theorem reached_unfilled :
    (ofBytes stream).after? registry 7 = some (midway stream 20 [.owned ⟨.str "i4", 0⟩]
      [[.owned ⟨.str "dtype", 0⟩], [.owned ⟨.dict [], 1⟩, .owned ⟨unfilled, 1⟩]] []) := by
  have hmark : (ofBytes stream).after? registry 1 = some (midway stream 1 [] [[]] []) := by cbv
  have hname : (midway stream 1 [] [[]] []).cursor.fetch? =
      some (.inst, .callNamed "a.W", ⟨6, stream.drop 6⟩) := by cbv
  have hcall : Call.run registry "a.W" [] = .ok ⟨unfilled, none⟩ := rfl
  rw [after?_add (k := 1) hmark 6, after?_callNamed [] hname (by simp) rfl rfl hcall (by decide)]
  cbv

theorem reached_state :
    (ofBytes stream).after? registry 12 =
      some (midway stream 44 [.owned ⟨.dict state, 2⟩, .owned ⟨unfilled, 1⟩] [] []) := by
  have hname : (midway stream 20 [.owned ⟨.str "i4", 0⟩]
      [[.owned ⟨.str "dtype", 0⟩], [.owned ⟨.dict [], 1⟩, .owned ⟨unfilled, 1⟩]] []).cursor.fetch? =
      some (.inst, .callNamed descriptorTypeName, ⟨33, stream.drop 33⟩) := by cbv
  have hcall : Call.run registry descriptorTypeName [.str "i4"] = .ok ⟨int32, none⟩ := rfl
  have hplain : ∀ v ∈ [Value.str "i4"], v.Plain :=
    List.forall_mem_singleton.mpr (.leaf (show "i4".utf8ByteSize < 2 ^ 64 by decide))
  have hlevels : Value.innerNesting [.str "i4"] = 0 := by
    simp [Value.innerNesting, Value.nesting_leaf]
  have hargs : [Slot.owned ⟨.str "i4", 0⟩] = ([Value.str "i4"].map holding).reverse := by
    simp [holding, Value.nesting_leaf]
  rw [after?_add (k := 7) reached_unfilled 5,
    after?_callNamed _ hname hplain hargs rfl hcall (by rw [hlevels]; decide), hlevels]
  cbv

theorem normalize_state : (Value.dict state).normalize = .dict state := by
  apply congrArg Value.dict
  apply Value.distinctEntries_of_pairwise
  apply List.pairwise_pair.mpr
  rw [← Bool.not_eq_true, Value.equal_str_eq_true_iff]
  simp

theorem reached_filled :
    (ofBytes stream).after? registry 13 = some (midway stream 53 [.owned ⟨filled, 3⟩] [] []) := by
  have hbuild : (midway stream 44 [.owned ⟨.dict state, 2⟩, .owned ⟨unfilled, 1⟩] []
      []).cursor.fetch? = some (.build, .build, ⟨45, stream.drop 45⟩) := by cbv
  rw [after?_add (k := 12) reached_state 1,
    after?_build hbuild rfl normalize_state (by decide) rfl]
  rfl

theorem load_filled : ((ofBytes stream).load registry).1 = .ok filled := by
  change (run registry 54 (ofBytes stream)).1 = _
  rw [run_of_after? reached_filled 41]
  cbv

end WrappedPair

theorem wrapped_arrays_complete_pair :
    ((ofBytes WrappedPair.stream).load WrappedPair.registry).1 = .ok WrappedPair.filled ∧
      WrappedPair.filled.Throughout Value.Filled :=
  ⟨WrappedPair.load_filled, wrapped_arrays_complete .ofBytes WrappedPair.load_filled⟩

end Machine

end PickledModel
