import PickledModel.Proofs.Object.Restoration
import PickledModel.Proofs.Tensor.WrappedPayload

/-! One array in two layouts. A wrapped array takes its payload from the stream
behind its state, after padding if the state announces some; an inlined array
has it in its state. From one element type, one shape and one payload both are
restored, and their tensors differ in the name of the layout alone. -/

set_option autoImplicit false

namespace PickledModel

/-- A product of dimensions that are not zero never leaves a word that holds the whole. -/
theorem Shape.product?_of_pos {factor : Nat} {shape : List Nat} (hpos : ∀ d ∈ shape, 0 < d)
    (hword : factor * shape.prod < 2 ^ 64) :
    product? factor shape = some (factor * shape.prod) := by
  induction shape generalizing factor with
  | nil => rw [List.prod_nil, Nat.mul_one]; rfl
  | cons d shape ih =>
    obtain ⟨-, hshape⟩ := List.forall_mem_cons.mp hpos
    rw [List.prod_cons, ← Nat.mul_assoc] at hword ⊢
    have hle : factor * d ≤ factor * d * shape.prod :=
      Nat.le_mul_of_pos_right _ (List.prod_pos_iff_forall_pos_nat.mpr hshape)
    rw [product?_cons, if_pos (Nat.lt_of_le_of_lt hle hword)]
    exact ih hshape hword

namespace Value

def ofShape (shape : List Nat) : Value := .tuple (shape.map fun d => .int (Int64.ofNat d))

theorem shape?_ofShape {shape : List Nat} (h : ∀ d ∈ shape, d < 2 ^ 63) :
    (ofShape shape).shape? = some shape := by
  have hdims : (shape.map fun d => Value.int (Int64.ofNat d)).mapM (fun d => do
      let i := (← d.int64?).toInt
      if 0 ≤ i then some i.toNat else .none) = some shape := by
    induction shape with
    | nil => rfl
    | cons d shape ih =>
      obtain ⟨hd, hshape⟩ := List.forall_mem_cons.mp h
      rw [List.map_cons, List.mapM_cons, ih hshape]
      simp only [int64?, Option.bind_eq_bind, Option.bind_some, Int64.toInt_ofNat_of_lt hd,
        Int.natCast_nonneg, if_true, Int.toNat_natCast, Option.pure_def]
  exact hdims

end Value

namespace ArrayBody
open Process

section
variable {typeName : String} {state : Value} {d : Descriptor Value} {shape : List Nat}
  {payload padding rest : Bytes} {p : Nat} {a b : ArrayBody Value}

structure Describes (state : Value) (d : Descriptor Value) (shape : List Nat) : Prop where
  dict : state.kind = .dict
  descriptor : (state.get? "dtype").bind Value.descriptor? = some d
  shape : (state.get? "shape").bind Value.shape? = some shape

/-- What stands behind the state of a wrapped array: padding after its length, if
it is announced, and the payload. -/
def behind (state : Value) (padding payload : Bytes) : Bytes :=
  if isPadded state then UInt8.ofNat padding.length :: (padding ++ payload) else payload

theorem expectDescriptor_of_some {v : Option Value} (h : v.bind Value.descriptor? = some d) :
    expectDescriptor typeName v = .ok d := by
  rw [expectDescriptor, h]

theorem expectShape_of_some {v : Option Value} (h : v.bind Value.shape? = some shape)
    (hshape : shape.length ≤ maxDimensions) : expectShape typeName v = .ok shape := by
  rw [expectShape, h]
  exact if_pos hshape

theorem start_skipPadding (hpadding : padding.length < 256) :
    skipPadding.start ⟨p, UInt8.ofNat padding.length :: (padding ++ rest)⟩ =
      (.ok (), ⟨p + 1 + padding.length, rest⟩) := by
  have hskip : Cursor.skip padding.length ⟨p + 1, padding ++ rest⟩ =
      .ok ((), ⟨p + 1 + padding.length, rest⟩) := by
    have htake := Cursor.take_append (p + 1) padding rest
    simp only [Cursor.skip, bind, StateT.bind, htake, Except.bind]
    rfl
  rw [skipPadding, start_bind, Machine.start_u8]
  dsimp only
  rw [UInt8.toNat_ofNat_of_lt' hpadding, start_read_ok hskip]

/-- A wrapped array takes the padding and the payload off the stream, and no more. -/
theorem start_restore_wrapped (hlayout : a.layout = .wrapped) (hs : Describes state d shape)
    (hshape : shape.length ≤ maxDimensions)
    (hsize : Shape.product? d.elementType.itemSize shape = some payload.length)
    (hpadding : padding.length < 256) :
    (restore typeName state).start (a, ⟨p, behind state padding payload ++ rest⟩) =
      (.ok (), ({ a with
        subtype := (state.get? "subclass").getD .none
        order := (state.get? "order").bind Value.string?
        allowMmap := (state.get? "allow_mmap").bind Value.bool?
        data := payload
        descriptor := some d
        shape }, ⟨p + (behind state padding payload).length, rest⟩)) := by
  have hpayload : (readPayload state payload.length).start
      ⟨p, behind state padding payload ++ rest⟩ =
        (.ok payload, ⟨p + (behind state padding payload).length, rest⟩) := by
    have htake : ∀ q, (read (Cursor.take payload.length)).start ⟨q, payload ++ rest⟩ =
        (.ok payload, ⟨q + payload.length, rest⟩) :=
      fun q => start_read_ok (Cursor.take_append q payload rest)
    by_cases hpad : isPadded state = true
    · simp only [readPayload, behind, hpad, if_true, List.cons_append, List.append_assoc,
        start_bind, start_skipPadding hpadding, htake, List.length_cons, List.length_append]
      congr 2
      omega
    · simp only [readPayload, behind, hpad, Bool.false_eq_true, if_false, htake]
  rw [restore, start_bind, start_get]
  simp only [hlayout]
  exact restoreWrapped_eq_ok_iff.mpr ⟨hs.dict, d, shape, _, payload,
    expectDescriptor_of_some hs.descriptor, expectShape_of_some hs.shape hshape, hsize, hpayload,
    by rw [hlayout]⟩

/-- An inlined array leaves the stream alone. -/
theorem start_restore_inlined {version dims code flag raw : Value} {c : Cursor}
    (hlayout : b.layout = .inlined) (hcode : code.descriptor? = some d)
    (hdims : dims.shape? = some shape) (hshape : shape.length ≤ maxDimensions)
    (hraw : raw.bytes? = some payload) :
    (restore typeName (.tuple [version, dims, code, flag, raw])).start (b, c) =
      (.ok (), ({ b with
        shape
        version := version.int64?
        order := some (if flag.bool?.getD false then "F" else "C")
        data := payload
        descriptor := some d }, c)) := by
  have hitems : (Value.tuple [version, dims, code, flag, raw]).items? =
      some [version, dims, code, flag, raw] := rfl
  have htaken := (@restoreInlined_eq_ok_iff typeName _ b _).mpr
    ⟨version, dims, code, flag, raw, d, shape, payload, hitems, expectDescriptor_of_some hcode,
      expectShape_of_some hdims hshape, hraw, rfl⟩
  rw [restore, start_bind, start_get]
  simp only [hlayout, start_on, htaken]

/-- Two arrays of one content: their tensors have the same type, the same state
and the same elements, in full and in any preview, and differ in the name of
the layout alone. -/
structure Alike (a b : ArrayBody Value) : Prop where
  descriptor : a.descriptor = b.descriptor
  shape : a.shape = b.shape
  data : a.data = b.data
  type : ∀ name budget,
    (Initializer.ofArray name a budget).type = (Initializer.ofArray name b budget).type
  state : ∀ name budget,
    (Initializer.ofArray name a budget).state? = (Initializer.ofArray name b budget).state?
  value : ∀ name budget,
    (Initializer.ofArray name a budget).value = (Initializer.ofArray name b budget).value
  preview : ∀ name budget,
    (Initializer.ofArray name a budget).preview = (Initializer.ofArray name b budget).preview
  tensor : ∀ name budget, Initializer.ofArray name a budget =
    { Initializer.ofArray name b budget with layout := a.layout }

theorem Alike.of_content (hdescriptor : a.descriptor = b.descriptor) (hshape : a.shape = b.shape)
    (hdata : a.data = b.data) : a.Alike b := by
  have htensor : ∀ name budget, Initializer.ofArray name a budget =
      { Initializer.ofArray name b budget with layout := a.layout } := by
    intro name budget
    simp only [Initializer.ofArray, tensorType?, hdescriptor, hshape, hdata]
  constructor
  · exact hdescriptor
  · exact hshape
  · exact hdata
  · intro name budget
    rw [htensor]
  · intro name budget
    rw [htensor]
    rfl
  · intro name budget
    rw [htensor]
    rfl
  · intro name budget
    rw [htensor]
    rfl
  · exact htensor

/-- Every shape of sizes that a stream can write stands in a state. From such
states, one element type and a payload of the size that both make, the two
layouts restore the same array, whatever the arrays were before. The wrapped one
leaves the cursor right behind its payload, the inlined one where it was. -/
theorem layouts_alike (hdims : shape.length ≤ 64) (hsizes : ∀ n ∈ shape, 1 ≤ n ∧ n < 2 ^ 63)
    (hpayload : payload.length < 2 ^ 63)
    (hlength : payload.length = d.elementType.itemSize * shape.prod)
    (hpadding : padding.length ≤ 255) :
    (Value.ofShape shape).shape? = some shape ∧
      ∀ (typeName typeName' : String) (a b : ArrayBody Value)
        (state version dims code raw : Value) (p : Nat) (c : Cursor),
        a.layout = .wrapped → b.layout = .inlined → Describes state d shape →
        dims.shape? = some shape → code.descriptor? = some d → raw.bytes? = some payload →
        ∃ a' b',
          (restore typeName state).start (a, ⟨p, behind state padding payload ++ rest⟩) =
            (.ok (), (a', ⟨p + (behind state padding payload).length, rest⟩)) ∧
          (restore typeName' (.tuple [version, dims, code, .bool false, raw])).start (b, c) =
            (.ok (), (b', c)) ∧
          a'.Alike b' ∧ a'.descriptor = some d ∧ a'.shape = shape ∧ a'.data = payload ∧
          a'.layout.label = "Array Wrapper" ∧ b'.layout.label = "Array" := by
  constructor
  · exact Value.shape?_ofShape fun n hn => (hsizes n hn).2
  · intro typeName typeName' a b state version dims code raw p c ha hb hstate hshape hcode hraw
    have hsize : Shape.product? d.elementType.itemSize shape = some payload.length := by
      rw [hlength]
      apply Shape.product?_of_pos fun n hn => (hsizes n hn).1
      omega
    have hwrapped : (restore typeName state).start
        (a, ⟨p, behind state padding payload ++ rest⟩) = _ :=
      start_restore_wrapped ha hstate hdims hsize (Nat.lt_succ_of_le hpadding)
    have hinlined : (restore typeName' (.tuple [version, dims, code, .bool false, raw])).start
        (b, c) = _ :=
      start_restore_inlined hb hcode hshape hdims hraw
    refine ⟨_, _, hwrapped, hinlined, .of_content rfl rfl rfl, rfl, rfl, rfl, ?_, ?_⟩
    · exact congrArg ArrayLayout.label ha
    · exact congrArg ArrayLayout.label hb

end

namespace PaddedRow

def int32 : Descriptor Value := ⟨.int32, .none, .none, none⟩

def code : Value := .object descriptorTypeName (.descriptor int32)

def state : Value :=
  .dict [(.str "shape", .list [.int 1, .bool true, .int 2]), (.str "dtype", code),
    (.str "numpy_array_alignment_bytes", .int 16)]

def payload : Bytes := [0x07, 0x00, 0x00, 0x00, 0xff, 0xff, 0xff, 0xff]

def padding : Bytes := [0xaa, 0xaa, 0xaa]

theorem describes : Describes state int32 [1, 1, 2] where
  dict := rfl
  descriptor := by cbv
  shape := by cbv

theorem behind_eq : behind state padding payload = 0x03 :: (padding ++ payload) := by cbv

end PaddedRow

theorem layouts_alike_padded :
    ∃ a b : ArrayBody Value,
      (restore "W" PaddedRow.state).start (make .wrapped [],
          ⟨5, 0x03 :: (PaddedRow.padding ++ PaddedRow.payload) ++ [0x2e]⟩) =
        (.ok (), (a, ⟨17, [0x2e]⟩)) ∧
      (restore "A" (.tuple [.int 1, .ofShape [1, 1, 2], PaddedRow.code, .bool false,
          .bytes PaddedRow.payload])).start (make .inlined [], ⟨0, []⟩) = (.ok (), (b, ⟨0, []⟩)) ∧
      a.Alike b ∧ a.shape = [1, 1, 2] := by
  obtain ⟨hdims, halike⟩ := @layouts_alike PaddedRow.int32 [1, 1, 2] PaddedRow.payload
    PaddedRow.padding [0x2e] (by decide) (by decide) (by decide) (by decide) (by decide)
  obtain ⟨a, b, hwrapped, hinlined, hab, -, hshape, -⟩ := halike "W" "A" (make .wrapped [])
    (make .inlined []) PaddedRow.state (.int 1) (.ofShape [1, 1, 2]) PaddedRow.code
    (.bytes PaddedRow.payload) 5 ⟨0, []⟩ rfl rfl PaddedRow.describes hdims rfl rfl
  rw [PaddedRow.behind_eq] at hwrapped
  exact ⟨a, b, hwrapped, hinlined, hab, hshape⟩

end ArrayBody

end PickledModel
