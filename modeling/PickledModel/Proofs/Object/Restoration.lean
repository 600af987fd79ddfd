import PickledModel.Object.Registry
import PickledModel.Proofs.Process.Outcome

/-! Arrays that take their state. A wrapped array that is given a state takes what
describes it from there and its payload from the stream, behind the padding that the
state announces; an inlined array takes both from its state. Where this succeeds is said
here once, with all that it leads to. -/

set_option autoImplicit false

namespace PickledModel.ArrayBody
open Process

variable {typeName : String} {state : Value} {a a' : ArrayBody Value} {c c' : Cursor}

def readPayload (state : Value) (size : Nat) : Process Cursor Bytes := do
  if isPadded state then skipPadding
  Process.read (Cursor.take size)

theorem readPayload_eq_ok_iff {size : Nat} {data : Bytes} :
    (readPayload state size).start c = (.ok data, c') ↔
      ∃ c₁, (if isPadded state then skipPadding.result? c else some ((), c)) = some ((), c₁) ∧
        (Process.read (Cursor.take size)).result? c₁ = some (data, c') := by
  rw [readPayload]
  by_cases hpad : isPadded state = true
  · simp only [hpad, if_true, result?_eq_some_iff]
    constructor
    · intro h
      obtain ⟨_, c₁, hskip, htake⟩ := start_bind_ok h
      exact ⟨c₁, hskip, htake⟩
    · rintro ⟨c₁, hskip, htake⟩
      rw [start_bind, hskip]
      exact htake
  · simp only [hpad, result?_eq_some_iff]
    constructor
    · intro h
      exact ⟨c, rfl, h⟩
    · rintro ⟨_, ⟨⟩, htake⟩
      exact htake

/-- Where the payload can be read, what is to be filled with it is. -/
theorem fill_eq_ok_iff {size : Nat} {f : Bytes → ArrayBody Value → ArrayBody Value} :
    (do
      if isPadded state then onSecond skipPadding
      let data ← onSecond (Process.read (Cursor.take size))
      modify fun s => (f data s.1, s.2) : Process (ArrayBody Value × Cursor) PUnit).start (a, c) =
        (.ok (), (a', c')) ↔
      ∃ data, (readPayload state size).start c = (.ok data, c') ∧ a' = f data a := by
  have htake : ∀ c₁, (do
      let data ← onSecond (Process.read (Cursor.take size))
      modify fun s => (f data s.1, s.2) : Process (ArrayBody Value × Cursor) PUnit).start (a, c₁) =
        (.ok (), (a', c')) ↔
      ∃ data, (Process.read (Cursor.take size)).start c₁ = (.ok data, c') ∧ a' = f data a := by
    intro c₁
    constructor
    · intro h
      obtain ⟨data, s, hread, h⟩ := start_bind_ok h
      obtain ⟨c₂, htake, rfl⟩ := start_on_ok hread
      cases h
      exact ⟨data, htake, rfl⟩
    · rintro ⟨data, htake, rfl⟩
      rw [start_bind, onSecond, start_on, htake]
      rfl
  rw [readPayload]
  by_cases hpad : isPadded state = true
  · simp only [hpad, if_true]
    constructor
    · intro h
      obtain ⟨_, s, hpart, h⟩ := start_bind_ok h
      obtain ⟨c₁, hskip, rfl⟩ := start_on_ok hpart
      obtain ⟨data, hdata, hfill⟩ := (htake c₁).mp h
      refine ⟨data, ?_, hfill⟩
      rw [start_bind, show skipPadding.start c = _ from hskip]
      exact hdata
    · rintro ⟨data, hpayload, rfl⟩
      obtain ⟨_, c₁, hskip, hdata⟩ := start_bind_ok hpayload
      rw [start_bind, onSecond, start_on, hskip]
      exact (htake c₁).mpr ⟨data, hdata, rfl⟩
  · simp only [hpad]
    exact htake c

/-- A wrapped array takes its state if that is a dict with an element type and a shape,
and the stream has as many bytes as they make. -/
theorem restoreWrapped_eq_ok_iff :
    (restoreWrapped typeName state).start (a, c) = (.ok (), (a', c')) ↔
      state.kind = .dict ∧ ∃ d shape size data,
        expectDescriptor typeName (state.get? "dtype") = .ok d ∧
        expectShape typeName (state.get? "shape") = .ok shape ∧
        Shape.product? d.elementType.itemSize shape = some size ∧
        (readPayload state size).start c = (.ok data, c') ∧
        a' = { a with
          subtype := (state.get? "subclass").getD .none
          order := (state.get? "order").bind Value.string?
          allowMmap := (state.get? "allow_mmap").bind Value.bool?
          data, descriptor := some d, shape } := by
  rw [restoreWrapped]
  by_cases hkind : state.kind = .dict
  · rw [if_neg (not_not_intro hkind)]
    constructor
    · intro h
      obtain ⟨d, _, htype, h₁⟩ := start_bind_ok h
      obtain ⟨hd, rfl⟩ := start_ofExcept_ok htype
      obtain ⟨shape, _, hsizes, h₂⟩ := start_bind_ok h₁
      obtain ⟨hs, rfl⟩ := start_ofExcept_ok hsizes
      obtain ⟨_, _, hdescribe, h₃⟩ := start_bind_ok h₂
      obtain ⟨-, rfl⟩ := Prod.mk.inj hdescribe
      cases hsize : Shape.product? d.elementType.itemSize shape with
      | none =>
        simp only [hsize] at h₃
        cases h₃
      | some size =>
        simp only [hsize] at h₃
        obtain ⟨data, hpayload, rfl⟩ := (fill_eq_ok_iff
          (f := fun data a => { a with data, descriptor := some d, shape })).mp h₃
        exact ⟨hkind, d, shape, size, data, hd, hs, hsize, hpayload, rfl⟩
    · rintro ⟨-, d, shape, size, data, hd, hs, hsize, hpayload, rfl⟩
      simp only [start_bind, start_ofExcept, start_modify, hd, hs, hsize]
      exact (fill_eq_ok_iff
        (f := fun data a => { a with data, descriptor := some d, shape })).mpr ⟨data, hpayload, rfl⟩
  · rw [if_pos hkind]
    constructor
    · rintro ⟨⟩
    · exact fun h => absurd h.1 hkind

/-- An inlined array takes its state if that is a tuple of five items, among them an
element type, a shape and the payload. -/
theorem restoreInlined_eq_ok_iff :
    (restoreInlined typeName state).start a = (.ok (), a') ↔
      ∃ version dims code flag raw d shape data,
        state.items? = some [version, dims, code, flag, raw] ∧
        expectDescriptor typeName (some code) = .ok d ∧
        expectShape typeName (some dims) = .ok shape ∧ raw.bytes? = some data ∧
        a' = { a with
          shape, version := version.int64?
          order := some (if flag.bool?.getD false then "F" else "C")
          data, descriptor := some d } := by
  rw [restoreInlined]
  constructor
  · intro h
    split at h
    · cases h
    · next version dims code flag raw hitems =>
      obtain ⟨d, _, htype, h₁⟩ := start_bind_ok h
      obtain ⟨hd, rfl⟩ := start_ofExcept_ok htype
      obtain ⟨shape, _, hsizes, h₂⟩ := start_bind_ok h₁
      obtain ⟨hs, rfl⟩ := start_ofExcept_ok hsizes
      obtain ⟨_, _, hdescribe, h₃⟩ := start_bind_ok h₂
      obtain ⟨-, rfl⟩ := Prod.mk.inj hdescribe
      cases hdata : raw.bytes? with
      | none =>
        simp only [hdata] at h₃
        cases h₃
      | some data =>
        simp only [hdata, start_modify] at h₃
        cases h₃
        exact ⟨version, dims, code, flag, raw, d, shape, data, hitems, hd, hs, hdata, rfl⟩
    · cases h
  · rintro ⟨version, dims, code, flag, raw, d, shape, data, hitems, hd, hs, hdata, rfl⟩
    simp only [start_bind, start_ofExcept, start_modify, hitems, hd, hs, hdata]

end PickledModel.ArrayBody
