import PickledModel.Proofs.Tensor.Decodability

/-! One element as a bare value. Two decoders read it: that of bare elements and that of
tensors without dimensions. Both give the 64-bit integer of the first eight bytes, but
only the second one asks for the byte order before. -/

set_option autoImplicit false

namespace PickledModel

namespace Tensor

variable {t : ElementType} {bs : Bytes} {b : Nat} {c : Content}

theorem needed_bare {f : Bytes → Scalar} (hf : decoder? t = some f) :
    needed ⟨t, []⟩ = t.itemSize := by
  cases t with
  | void bits => cases hf
  | _ => rfl

/-- A tensor without dimensions shows one element, from the first bytes of its payload. -/
theorem decode_bare_iff (hb : 0 < b) :
    decode ⟨t, []⟩ bs b = .ok c ↔
      ∃ f, decoder? t = some f ∧ t.itemSize ≤ bs.length ∧
        c = .scalar (f (bs.take t.itemSize)) := by
  have hnonzero : ¬(([] : List Nat) = [] ∧ b = 0) := by omega
  have hmin : min b 1 = 1 := Nat.min_eq_right hb
  have hone : t.itemSize * min b ([] : List Nat).prod = t.itemSize := by
    rw [List.prod_nil, hmin, Nat.mul_one]
  constructor
  · intro h
    obtain ⟨⟨⟩, hcheck, -⟩ := Except.bind_ok h
    obtain ⟨-, -, ⟨f, hf⟩, -⟩ := check_eq_ok_iff.mp hcheck
    rcases decode_framed List.not_mem_nil hf h with ⟨-, hzero, -⟩ | ⟨-, hreach, hc⟩
    · omega
    · rw [hone] at hreach
      exact ⟨f, hf, hreach, hc⟩
  · rintro ⟨f, hf, hreach, rfl⟩
    have hpos := itemSize_pos hf
    have hfilled : bs = [] → Shape.count? [] = some 0 := by
      rintro rfl
      exact absurd hreach (Nat.not_le.mpr hpos)
    have hneeded : needed ⟨t, []⟩ ≤ bs.length := (needed_bare hf).le.trans hreach
    have hcheck : check ⟨t, []⟩ bs = .ok () :=
      check_eq_ok_iff.mpr ⟨Nat.zero_le _, hfilled, ⟨f, hf⟩, hneeded⟩
    have hlevel := (level_start hf List.not_mem_nil (.inl hb)).mpr ⟨hone.le.trans hreach, rfl, rfl⟩
    rw [decode, hcheck]
    dsimp only [bind, Except.bind]
    rw [if_neg hnonzero, hlevel]
    rfl

def int64? (t : ElementType) (bs : Bytes) : Option Int64 :=
  if t = .int64 ∧ 8 ≤ bs.length then some (Int64.ofInt (Word.signed (bs.take 8))) else none

theorem int64?_eq_none_iff : int64? t bs = none ↔ ¬(t = .int64 ∧ 8 ≤ bs.length) := by
  rw [int64?]
  split
  · next h => exact iff_of_false (by simp) (not_not.mpr h)
  · next h => exact iff_of_true rfl h

theorem decode_bare_int64_iff (hb : 0 < b) {v : Int64} :
    decode ⟨t, []⟩ bs b = .ok (.scalar (.int64 v)) ↔ int64? t bs = some v := by
  rw [decode_bare_iff hb, int64?]
  cases t with
  | int64 => simp [decoder?, ElementType.itemSize, eq_comm]
  | _ => simp [decoder?]

end Tensor

namespace ArrayBody

def bare (d : Descriptor Value) (bs : Bytes) : ArrayBody Value :=
  { make .inlined [] with descriptor := some d, data := bs }

section
variable {typeName : String} {args : List Value} {d : Descriptor Value} {bs : Bytes}

theorem scalar_eq_ok_iff (hd : args[0]?.bind Value.descriptor? = some d)
    (hbs : args[1]?.bind Value.bytes? = some bs) {w : Value} :
    scalar typeName args = .ok w ↔ ∃ v, Tensor.int64? d.elementType bs = some v ∧ w = .int v := by
  rw [scalar, expectDescriptor, hd, hbs, Tensor.int64?]
  dsimp only [bind, Except.bind, pure, Except.pure]
  cases d.elementType with
  | int64 =>
    by_cases hlength : 8 ≤ bs.length
    · simp [hlength, eq_comm]
    · simp [hlength]
  | _ => simp

/-- The decoder of bare elements gives nothing but integers, and those that the tensor
would show if no byte order were declared. So the two agree on every payload unless the
descriptor declares the most significant byte to come first and there are the eight
bytes of a 64-bit integer: then the tensor shows nothing. -/
theorem scalar_agrees (hd : args[0]?.bind Value.descriptor? = some d)
    (hbs : args[1]?.bind Value.bytes? = some bs) (name : String) (budget : Nat) :
    (∀ w, scalar typeName args = .ok w → ∃ v, w = .int v) ∧
    (∀ v, scalar typeName args = .ok (.int v) ↔
      { Initializer.ofArray name (bare d bs) budget with bigEndian := false }.value =
        .ok (.scalar (.int64 v))) ∧
    ((∀ v, scalar typeName args = .ok (.int v) ↔
        (Initializer.ofArray name (bare d bs) budget).value = .ok (.scalar (.int64 v))) ↔
      ¬(d.isBigEndian = true ∧ d.elementType = .int64 ∧ 8 ≤ bs.length)) := by
  have hint : ∀ v, scalar typeName args = .ok (.int v) ↔
      Tensor.int64? d.elementType bs = some v := by
    intro v
    rw [scalar_eq_ok_iff hd hbs]
    simp
  refine ⟨?_, ?_, ?_⟩
  · intro w hw
    obtain ⟨v, -, rfl⟩ := (scalar_eq_ok_iff hd hbs).mp hw
    exact ⟨v, rfl⟩
  · intro v
    rw [hint, Initializer.value_eq rfl]
    exact (Tensor.decode_bare_int64_iff (by decide)).symm
  · rw [Initializer.value_eq rfl]
    cases hbig : (Initializer.ofArray name (bare d bs) budget).bigEndian with
    | true =>
      have hdeclared : d.isBigEndian = true := hbig
      simp only [hint, hdeclared, if_true, reduceCtorEq, iff_false, true_and,
        ← Tensor.int64?_eq_none_iff, Option.eq_none_iff_forall_ne_some]
    | false =>
      have hdeclared : d.isBigEndian = false := hbig
      simp only [hint, hdeclared, Bool.false_eq_true, if_false, false_and, not_false_iff, iff_true]
      exact fun v => (Tensor.decode_bare_int64_iff (by decide)).symm

end

namespace OrderedWord

def state (order : String) : Value :=
  .tuple [.int 3, .str order, .none, .none, .none, .int (-1), .int (-1), .int 0]

def descriptor (order : String) : Descriptor Value :=
  ⟨.int64, .bool false, .bool true,
    some ⟨.int 3, .str order, .none, .none, .none, .int (-1), .int (-1), .int 0⟩⟩

/-- What the loader makes of the type code `i8` and of such a state. -/
theorem restore_make (order : String) :
    (do (← Descriptor.make [.str "i8", .bool false, .bool true]).restore (state order)) =
      .ok (descriptor order) := by
  cbv

def payload : Bytes := [1, 0, 0, 0, 0, 0, 0, 0]

def args (order : String) : List Value :=
  [.object descriptorTypeName (.descriptor (descriptor order)), .bytes payload]

end OrderedWord

theorem scalar_agrees_little_endian :
    (do (← Descriptor.make [.str "i8", .bool false, .bool true]).restore (OrderedWord.state "<")) =
        .ok (OrderedWord.descriptor "<") ∧
      scalar "numpy.core.multiarray.scalar" (OrderedWord.args "<") = .ok (.int 1) ∧
      (Initializer.ofArray "n_" (bare (OrderedWord.descriptor "<") OrderedWord.payload) 1).value =
        .ok (.scalar (.int64 1)) ∧
      ∀ v, scalar "numpy.core.multiarray.scalar" (OrderedWord.args "<") = .ok (.int v) ↔
        (Initializer.ofArray "n_" (bare (OrderedWord.descriptor "<") OrderedWord.payload) 1).value =
          .ok (.scalar (.int64 v)) := by
  have hlittle : (OrderedWord.descriptor "<").isBigEndian = false := by cbv
  have hscalar : scalar "numpy.core.multiarray.scalar" (OrderedWord.args "<") = .ok (.int 1) := by
    cbv
  obtain ⟨-, -, hagree⟩ := @scalar_agrees "numpy.core.multiarray.scalar" (OrderedWord.args "<")
    (OrderedWord.descriptor "<") OrderedWord.payload rfl rfl "n_" 1
  have hboth := hagree.mpr (by simp [hlittle])
  exact ⟨OrderedWord.restore_make "<", hscalar, (hboth 1).mp hscalar, hboth⟩

/-- An element whose most significant byte comes first is decoded from the wrong end. -/
theorem big_endian_element_decoded :
    (do (← Descriptor.make [.str "i8", .bool false, .bool true]).restore (OrderedWord.state ">")) =
        .ok (OrderedWord.descriptor ">") ∧
      (OrderedWord.descriptor ">").isBigEndian = true ∧
      scalar "numpy.core.multiarray.scalar" (OrderedWord.args ">") = .ok (.int 1) ∧
      (Initializer.ofArray "n_" (bare (OrderedWord.descriptor ">") OrderedWord.payload) 1).value =
        .error .bigEndian := by
  refine ⟨OrderedWord.restore_make ">", ?_, ?_, ?_⟩
  · cbv
  · cbv
  · cbv

end ArrayBody

end PickledModel
