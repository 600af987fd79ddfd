import PickledModel.Object.Call

/-! Texts where bytes are asked for. A text of Latin-1 characters is taken for its bytes by
everything that consumes bytes, and every other text is refused. -/

set_option autoImplicit false

namespace PickledModel

namespace Text

theorem latin1Byte?_eq_some_iff {c : Char} {b : UInt8} :
    latin1Byte? c = some b ↔ c = latin1Char b := by
  constructor
  · intro h
    unfold latin1Byte? at h
    split at h
    · next hc =>
      obtain rfl := Option.some.inj h
      have hcode : (UInt8.ofNat c.toNat).toNat = c.toNat := by
        rw [UInt8.toNat_ofNat']
        exact Nat.mod_eq_of_lt hc
      rw [latin1Char, hcode, Char.ofNat_toNat]
    · cases h
  · rintro rfl
    exact latin1Byte?_latin1Char b

theorem latin1Byte?_eq_none_iff {c : Char} : latin1Byte? c = none ↔ 0xff < c.toNat := by
  unfold latin1Byte?
  split
  · next hc => exact iff_of_false (by simp) (by omega)
  · next hc => exact iff_of_true rfl (by omega)

/-- The bytes of a text are those that it is the Latin-1 text of. -/
theorem latin1Bytes?_eq_some_iff {s : String} {bs : Bytes} :
    latin1Bytes? s = some bs ↔ s = latin1 bs := by
  constructor
  · intro h
    have hall : ∀ cs : List Char, cs.mapM latin1Byte? = some bs → cs = bs.map latin1Char := by
      clear h
      intro cs
      induction cs generalizing bs with
      | nil =>
        intro h
        cases h
        rfl
      | cons c cs ih =>
        rw [List.mapM_cons]
        intro h
        obtain ⟨b, hb, h⟩ := Option.bind_eq_some_iff.mp h
        obtain ⟨bs, hbs, h⟩ := Option.bind_eq_some_iff.mp h
        cases h
        rw [latin1Byte?_eq_some_iff.mp hb, ih hbs, List.map_cons]
    rw [latin1, ← hall _ h, String.ofList_toList]
  · rintro rfl
    exact latin1Bytes?_latin1 bs

theorem latin1Bytes?_eq_none_iff {s : String} :
    latin1Bytes? s = none ↔ ∃ c ∈ s.toList, 0xff < c.toNat := by
  unfold latin1Bytes?
  induction s.toList with
  | nil => simp
  | cons c cs ih =>
    have hsplit : (∃ d ∈ c :: cs, 0xff < d.toNat) ↔
        latin1Byte? c = none ∨ cs.mapM latin1Byte? = none := by
      rw [ih, latin1Byte?_eq_none_iff]
      simp
    rw [hsplit, List.mapM_cons]
    cases latin1Byte? c with
    | none => simp
    | some b => cases cs.mapM latin1Byte? <;> simp

end Text

structure TakesText {α : Type} (refused : α → Prop) (consume : Value → α) : Prop where
  alike : ∀ bs, consume (.str (Text.latin1 bs)) = consume (.bytes bs)
  refuses : ∀ s, (∃ c ∈ s.toList, 0xff < c.toNat) → refused (consume (.str s))

/-- What depends on the bytes of a value alone, and refuses a value without any. -/
theorem TakesText.of_bytes? {α : Type} {refused : α → Prop} {consume : Value → α}
    (halike : ∀ v w bs, v.bytes? = some bs → w.bytes? = some bs → consume v = consume w)
    (hrefused : ∀ v, v.bytes? = none → refused (consume v)) : TakesText refused consume where
  alike bs := halike _ _ bs (Text.latin1Bytes?_latin1 bs) rfl
  refuses _ hs := hrefused _ (Text.latin1Bytes?_eq_none_iff.mpr hs)

theorem TakesText.map {α β : Type} {refused : α → Prop} {refused' : β → Prop}
    {consume : Value → α} (h : TakesText refused consume) {f : α → β}
    (hf : ∀ o, refused o → refused' (f o)) : TakesText refused' fun v => f (consume v) where
  alike bs := congrArg f (h.alike bs)
  refuses s hs := hf _ (h.refuses s hs)

namespace Call

def byteBuilders : List String :=
  ["_codecs.encode", "__builtin__.bytes", "builtins.bytes", "__builtin__.bytearray",
    "builtins.bytearray"]

theorem target_of_notMem {name : String} (h : name ∉ reconstructors) (args : List Value) :
    target name args = (name, args) := by
  unfold target
  split
  · rw [if_neg fun hname => h hname.1]
  · rfl

theorem run_scalar (r : Registry) {name : String} (h : name ∈ scalars) (args : List Value) :
    run r name args = do return ⟨← ArrayBody.scalar name args, none⟩ := by
  have hdisjoint : ∀ n ∈ scalars, n ∉ reconstructors := by decide
  rw [run, target_of_notMem (hdisjoint name h)]
  exact if_pos h

theorem run_byteBuilder (r : Registry) {name : String} (h : name ∈ byteBuilders) :
    ∃ b, (b = .encode ∨ b = .bytes) ∧
      ∀ args, run r name args = do return ⟨← Builtin.apply name b args, none⟩ := by
  have hnames : ∀ n ∈ byteBuilders, n ∉ reconstructors ∧ n ∉ scalars ∧
      (builtin? n = some .encode ∨ builtin? n = some .bytes) := by decide
  obtain ⟨hreconstructor, hscalar, hbuiltin⟩ := hnames name h
  have hrun : ∀ b, builtin? name = some b →
      ∀ args, run r name args = do return ⟨← Builtin.apply name b args, none⟩ := by
    intro b hb args
    rw [run, target_of_notMem hreconstructor]
    dsimp only
    rw [if_neg hscalar, hb]
  rcases hbuiltin with hb | hb
  · exact ⟨.encode, .inl rfl, hrun _ hb⟩
  · exact ⟨.bytes, .inr rfl, hrun _ hb⟩

theorem apply_of_bytes? {name : String} {b : Builtin} (hb : b = .encode ∨ b = .bytes)
    {raw : Value} {bs : Bytes} (hraw : raw.bytes? = some bs) (more : List Value) :
    b.apply name (raw :: more) = .ok (.bytes bs) := by
  rcases hb with rfl | rfl
  · unfold Value.bytes? at hraw
    split at hraw
    · cases hraw
      rfl
    · rw [Builtin.apply, hraw]
    · cases hraw
  · rw [Builtin.apply, hraw]

theorem apply_of_no_bytes {b : Builtin} (hb : b = .encode ∨ b = .bytes) {raw : Value}
    (hraw : raw.bytes? = none) (name : String) (more : List Value) :
    ∃ e, b.apply name (raw :: more) = .error e := by
  rcases hb with rfl | rfl
  · cases raw with
    | leaf l =>
      cases l with
      | str s =>
        have hs : Text.latin1Bytes? s = none := hraw
        rw [Builtin.apply, hs]
        exact ⟨_, rfl⟩
      | bytes bs => cases hraw
      | _ => exact ⟨_, rfl⟩
    | _ => exact ⟨_, rfl⟩
  · rw [Builtin.apply, hraw]
    exact ⟨_, rfl⟩

/-- The bytes of the first argument are the result, and without any there is none. -/
theorem run_first_bytes (r : Registry) {name : String} (h : name ∈ byteBuilders) (raw : Value)
    (more : List Value) :
    (∀ bs, raw.bytes? = some bs → run r name (raw :: more) = .ok ⟨.bytes bs, none⟩) ∧
      (raw.bytes? = none → ∃ e, run r name (raw :: more) = .error e) := by
  obtain ⟨b, hb, hrun⟩ := run_byteBuilder r h
  rw [hrun]
  constructor
  · intro bs hraw
    rw [apply_of_bytes? hb hraw]
    rfl
  · intro hraw
    obtain ⟨e, he⟩ := apply_of_no_bytes hb hraw name more
    exact ⟨e, by rw [he]; rfl⟩

end Call

namespace ArrayBody

theorem takesText_scalar (typeName : String) (dtype : Value) (more : List Value) :
    TakesText (fun o => ∃ e, o = .error e) fun raw => scalar typeName (dtype :: raw :: more) := by
  refine .of_bytes? (fun v w bs hv hw => ?_) fun v hv => ?_
  · have hbytes : (dtype :: v :: more)[1]?.bind Value.bytes? =
        (dtype :: w :: more)[1]?.bind Value.bytes? := hv.trans hw.symm
    rw [scalar, scalar, hbytes]
    rfl
  · have hbytes : (dtype :: v :: more)[1]?.bind Value.bytes? = none := hv
    rw [scalar, hbytes]
    cases expectDescriptor typeName (dtype :: v :: more)[0]? with
    | error e => exact ⟨e, rfl⟩
    | ok d => exact ⟨_, rfl⟩

def Kept (a a' : ArrayBody Value) : Prop := a'.data = a.data ∧ a'.descriptor = a.descriptor

theorem restoreInlined_of_no_bytes (typeName : String) {state raw : Value}
    {version shape typeCode columnMajor : Value}
    (hstate : state.items? = some [version, shape, typeCode, columnMajor, raw])
    (hraw : raw.bytes? = none) (a : ArrayBody Value) :
    ∃ e a', (restoreInlined typeName state).start a = (.error e, a') ∧ Kept a a' := by
  simp only [restoreInlined, hstate, hraw, Process.start_bind, Process.start_ofExcept]
  cases expectDescriptor typeName (some typeCode) with
  | error e => exact ⟨e, a, rfl, rfl, rfl⟩
  | ok d =>
    cases expectShape typeName (some shape) with
    | error e => exact ⟨e, a, rfl, rfl, rfl⟩
    | ok shape => exact ⟨_, _, rfl, rfl, rfl⟩

/-- The last of the five items of a state, in whichever container. -/
theorem takesText_restoreInlined (typeName : String) (kind : SequenceKind)
    (version shape typeCode columnMajor : Value) (a : ArrayBody Value) :
    TakesText (fun o => ∃ e a', o = (.error e, a') ∧ Kept a a') fun raw =>
      (restoreInlined typeName
        (.sequence kind [version, shape, typeCode, columnMajor, raw])).start a := by
  refine .of_bytes? (fun v w bs hv hw => ?_) fun v hv => ?_
  · cases kind with
    | list => simp only [restoreInlined, Value.items?, hv, hw]
    | tuple => simp only [restoreInlined, Value.items?, hv, hw]
    | set => rfl
    | frozenSet => rfl
  · cases kind with
    | list => exact restoreInlined_of_no_bytes typeName rfl hv a
    | tuple => exact restoreInlined_of_no_bytes typeName rfl hv a
    | set => exact ⟨_, a, rfl, rfl, rfl⟩
    | frozenSet => exact ⟨_, a, rfl, rfl, rfl⟩

theorem start_restoreWrapped_error (typeName : String) {state : Value}
    (h : state.kind ≠ .dict) (s : ArrayBody Value × Cursor) :
    (restoreWrapped typeName state).start s =
      (.error (.malformedState typeName (.notDict state.kind)), s) := by
  rw [restoreWrapped, if_pos h]
  rfl

end ArrayBody

theorem Body.start_restore_array (typeName : String) (state : Value) (a : ArrayBody Value)
    (c : Cursor) :
    (Body.restore typeName state).start (.array a, c) =
      let o := (ArrayBody.restore typeName state).start (a, c)
      (o.1, .array o.2.1, o.2.2) := rfl

/-- The state of a wrapped array is a dict, so that a sequence of any kind is refused. -/
theorem Body.start_restore_wrapped_sequence (typeName : String) (kind : SequenceKind)
    (items : List Value) {a : ArrayBody Value} (c : Cursor) (h : a.layout = .wrapped) :
    (Body.restore typeName (.sequence kind items)).start (.array a, c) =
      (.error (.malformedState typeName (.notDict kind.kind)), .array a, c) := by
  have hkind : (Value.sequence kind items).kind ≠ .dict := by
    cases kind <;> nofun
  have hthrow := ArrayBody.start_restoreWrapped_error typeName hkind (a, c)
  rw [start_restore_array, ArrayBody.restore, Process.start_bind, Process.start_get]
  simp only [h, hthrow]
  rfl

theorem Body.start_restore_inlined_sequence (typeName : String) (kind : SequenceKind)
    (items : List Value) {a : ArrayBody Value} (c : Cursor) (h : a.layout = .inlined) :
    (Body.restore typeName (.sequence kind items)).start (.array a, c) =
      let o := (ArrayBody.restoreInlined typeName (.sequence kind items)).start a
      (o.1, .array o.2, c) := by
  rw [start_restore_array, ArrayBody.restore, Process.start_bind, Process.start_get]
  simp only [h]
  rfl

theorem Body.takesText_restore (typeName : String) (kind : SequenceKind)
    (version shape typeCode columnMajor : Value) (a : ArrayBody Value) (c : Cursor) :
    TakesText (fun o => ∃ e a', o = (.error e, .array a', c) ∧ a.Kept a') fun raw =>
      (Body.restore typeName
        (.sequence kind [version, shape, typeCode, columnMajor, raw])).start (.array a, c) := by
  cases hlayout : a.layout with
  | wrapped =>
    simp only [start_restore_wrapped_sequence _ _ _ _ hlayout]
    exact ⟨fun _ => rfl, fun _ _ => ⟨_, a, rfl, rfl, rfl⟩⟩
  | inlined =>
    simp only [start_restore_inlined_sequence _ _ _ _ hlayout]
    refine (ArrayBody.takesText_restoreInlined typeName kind version shape typeCode columnMajor
      a).map (f := fun o => (o.1, Body.array o.2, c)) ?_
    rintro o ⟨e, a', rfl, hkept⟩
    exact ⟨e, a', rfl, hkept⟩

/-- A Latin-1 text has the bytes that it was made from and no other text has any. It stands
for its bytes as the element of a scalar, as the first argument of what builds a byte run
and as the payload in the state of an array; any other text is refused there, and the
array keeps what it had. -/
theorem Call.byte_consumers_take_text (r : Registry) :
    (∀ s bs, (Value.str s).bytes? = some bs ↔ s = Text.latin1 bs) ∧
    (∀ bs, (Value.str (Text.latin1 bs)).bytes? = some bs) ∧
    (∀ s, (Value.str s).bytes? = none ↔ ∃ c ∈ s.toList, 0xff < c.toNat) ∧
    (∀ name ∈ Call.scalars, ∀ dtype more,
      TakesText (fun o => ∃ e, o = .error e) fun raw => Call.run r name (dtype :: raw :: more)) ∧
    (∀ name ∈ Call.byteBuilders, ∀ more,
      TakesText (fun o => ∃ e, o = .error e) (fun raw => Call.run r name (raw :: more)) ∧
        ∀ bs, Call.run r name (.bytes bs :: more) = .ok ⟨.bytes bs, none⟩) ∧
    ∀ typeName kind version shape typeCode columnMajor (a : ArrayBody Value) c,
      TakesText (fun o => ∃ e a', o = (.error e, .array a', c) ∧ a.Kept a') fun raw =>
        (Body.restore typeName
          (.sequence kind [version, shape, typeCode, columnMajor, raw])).start (.array a, c) := by
  refine ⟨fun _ _ => Text.latin1Bytes?_eq_some_iff, Text.latin1Bytes?_latin1,
    fun _ => Text.latin1Bytes?_eq_none_iff, ?_, ?_, Body.takesText_restore⟩
  · intro name hname dtype more
    simp only [Call.run_scalar r hname]
    refine (ArrayBody.takesText_scalar name dtype more).map
      (f := fun o => do return Outcome.mk (← o) none) ?_
    rintro o ⟨e, rfl⟩
    exact ⟨e, rfl⟩
  · intro name hname more
    have hfirst := fun raw => Call.run_first_bytes r hname raw more
    refine ⟨.of_bytes? (fun v w bs hv hw => ?_) fun v => (hfirst v).2,
      fun bs => (hfirst _).1 bs rfl⟩
    rw [(hfirst v).1 bs hv, (hfirst w).1 bs hw]

/-- An element of two's complement as text, and a text beyond Latin-1. -/
theorem Call.byte_consumers_take_text_scalar :
    "numpy.core.multiarray.scalar" ∈ Call.scalars ∧ "_codecs.encode" ∈ Call.byteBuilders ∧
    (∃ c ∈ "\u0100".toList, 0xff < c.toNat) ∧
    Call.run .standard "numpy.core.multiarray.scalar"
        [.object "numpy.dtype" (.descriptor ⟨.int64, .none, .none, none⟩),
          .str (Text.latin1 [0xff, 0, 0, 0, 0, 0, 0, 0])] = .ok ⟨.int 255, none⟩ ∧
    ∃ e, Call.run .standard "_codecs.encode" [.str "\u0100"] = .error e := by
  have hscalar : "numpy.core.multiarray.scalar" ∈ Call.scalars := by decide
  have hencode : "_codecs.encode" ∈ Call.byteBuilders := by decide
  have hbeyond : ∃ c ∈ "\u0100".toList, 0xff < c.toNat := ⟨'\u0100', by decide, by decide⟩
  obtain ⟨-, -, -, htake, hbuild, -⟩ := byte_consumers_take_text .standard
  refine ⟨hscalar, hencode, hbeyond, ?_, (hbuild _ hencode []).1.refuses _ hbeyond⟩
  rw [(htake _ hscalar _ []).alike [0xff, 0, 0, 0, 0, 0, 0, 0], run_scalar .standard hscalar]
  have hword : Int64.ofInt (Word.signed [0xff, 0, 0, 0, 0, 0, 0, 0]) = 255 := by decide
  rw [← hword]
  rfl

end PickledModel
