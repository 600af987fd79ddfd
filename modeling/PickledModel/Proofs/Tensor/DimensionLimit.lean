import PickledModel.Proofs.Stream.CopiedBytes
import PickledModel.Proofs.Stream.Mirroring

/-! The limit of dimensions. A state with a longer shape is refused, and the array it was
for keeps the shape that it had. The shape among the arguments of a call is not checked,
so an array has more dimensions than the limit if it was made with so many, and has been
given no state since. -/

set_option autoImplicit false

namespace PickledModel

/-- An array beyond the limit holds no elements and knows no type of them, and its shape
was given when it was made. -/
def ArrayBody.Capped (given : List Nat → Prop) (a : ArrayBody Value) : Prop :=
  maxDimensions < a.shape.length → a.descriptor = none ∧ a.data = [] ∧ given a.shape

namespace ArrayBody
open Process

variable {given : List Nat → Prop}

theorem restoreWrapped_capped (typeName : String) (state : Value) :
    Keeps (fun s : ArrayBody Value × Cursor => s.1.Capped given) (restoreWrapped typeName state)
      fun _ => True := by
  apply restoreWrapped_keeps
  · exact fun a h => h
  · intro a d shape data _ hshape _ _ hlong
    exact absurd hlong (Nat.not_lt.mpr hshape)

/-- An inlined array keeps all it has, or gets a shape within the limit. -/
theorem restoreInlined_shape (typeName : String) (state : Value) (a : ArrayBody Value) :
    ((restoreInlined typeName state).start a).2 = a ∨
      ((restoreInlined typeName state).start a).2.shape.length ≤ maxDimensions := by
  unfold restoreInlined
  cases state.items? with
  | none => exact .inl rfl
  | some items =>
    split
    · exact .inl rfl
    · next version shape typeCode columnMajor raw _ =>
      simp only [start_bind, start_ofExcept]
      cases expectDescriptor typeName (some typeCode) with
      | error e => exact .inl rfl
      | ok d =>
        cases hshape : expectShape typeName (some shape) with
        | error e => exact .inl rfl
        | ok dims =>
          right
          simp only [start_modify]
          cases raw.bytes? <;> exact expectShape_length_le hshape
    · exact .inl rfl

/-- Restored, once or again and even in part, an array gets no shape beyond the limit. -/
theorem restore_capped (typeName : String) (state : Value) :
    Keeps (fun s : ArrayBody Value × Cursor => s.1.Capped given) (restore typeName state)
      fun _ => True := by
  apply Keeps.get.bind
  intro s _
  cases s.1.layout with
  | wrapped => exact restoreWrapped_capped typeName state
  | inlined =>
    rintro ⟨a, c⟩ ha
    refine ⟨?_, fun _ _ => trivial⟩
    rw [start_on]
    rcases restoreInlined_shape typeName state a with heq | hle
    · rw [heq]
      exact ha
    · exact fun hlong => absurd hlong (Nat.not_lt.mpr hle)

def stateShape? (state : Value) : ArrayLayout → Option (List Nat)
  | .wrapped => (state.get? "shape").bind Value.shape?
  | .inlined =>
    match state.items? with
    | some [_, shape, _, _, _] => shape.shape?
    | _ => none

theorem expectShape_error {typeName : String} {v : Option Value} {shape : List Nat}
    (h : v.bind Value.shape? = some shape) (hlong : maxDimensions < shape.length) :
    expectShape typeName v = .error (.malformedState typeName (.dimensions shape.length)) := by
  rw [expectShape, h]
  exact if_neg (Nat.not_le.mpr hlong)

theorem expectDescriptor_cases (typeName : String) (v : Option Value) :
    (∃ d, expectDescriptor typeName v = .ok d) ∨
      expectDescriptor typeName v = .error (.malformedState typeName .noDescriptor) := by
  unfold expectDescriptor
  cases v.bind Value.descriptor? with
  | none => exact .inr rfl
  | some d => exact .inl ⟨d, rfl⟩

theorem restoreWrapped_of_long {typeName : String} {state : Value} {shape : List Nat}
    (s : ArrayBody Value × Cursor) (h : stateShape? state .wrapped = some shape)
    (hlong : maxDimensions < shape.length) :
    ∃ fault, (restoreWrapped typeName state).start s =
      (.error (.malformedState typeName fault), s) := by
  unfold restoreWrapped
  by_cases hkind : state.kind ≠ .dict
  · rw [if_pos hkind]
    exact ⟨_, rfl⟩
  rw [if_neg hkind, start_bind, start_ofExcept]
  rcases expectDescriptor_cases typeName (state.get? "dtype") with ⟨d, hd⟩ | hd <;> rw [hd]
  · dsimp only
    rw [start_bind, start_ofExcept, expectShape_error h hlong]
    exact ⟨_, rfl⟩
  · exact ⟨_, rfl⟩

theorem restoreInlined_of_long {typeName : String} {state : Value} {shape : List Nat}
    (a : ArrayBody Value) (h : stateShape? state .inlined = some shape)
    (hlong : maxDimensions < shape.length) :
    ∃ fault, (restoreInlined typeName state).start a =
      (.error (.malformedState typeName fault), a) := by
  rw [stateShape?] at h
  split at h
  · next version dims typeCode columnMajor raw hitems =>
    simp only [restoreInlined, hitems, start_bind, start_ofExcept]
    rcases expectDescriptor_cases typeName (some typeCode) with ⟨d, hd⟩ | hd <;> rw [hd]
    · dsimp only
      have hdims : (some dims).bind Value.shape? = some shape := h
      rw [expectShape_error hdims hlong]
      exact ⟨_, rfl⟩
    · exact ⟨_, rfl⟩
  · cases h

/-- A state whose shape is beyond the limit is refused, and nothing changes. -/
theorem restore_of_long {typeName : String} {state : Value} {shape : List Nat}
    {a : ArrayBody Value} (c : Cursor) (h : stateShape? state a.layout = some shape)
    (hlong : maxDimensions < shape.length) :
    ∃ fault, (restore typeName state).start (a, c) =
      (.error (.malformedState typeName fault), (a, c)) := by
  rw [restore, start_bind, start_get]
  dsimp only
  cases hlayout : a.layout with
  | wrapped => exact restoreWrapped_of_long (a, c) (hlayout ▸ h) hlong
  | inlined =>
    obtain ⟨fault, hfault⟩ :=
      @restoreInlined_of_long typeName state shape a (hlayout ▸ h) hlong
    exact ⟨fault, by rw [start_on, hfault]⟩

end ArrayBody

def Value.Capped (given : List Nat → Prop) : Value → Prop
  | .object _ (.array a) => a.Capped given
  | _ => True

theorem Value.Capped.mono {given given' : List Nat → Prop} (hg : ∀ shape, given shape → given' shape)
    {v : Value} (h : v.Capped given) : v.Capped given' := by
  unfold Value.Capped at h ⊢
  split at h
  · intro hlong
    obtain ⟨hdescriptor, hdata, hgiven⟩ := h hlong
    exact ⟨hdescriptor, hdata, hg _ hgiven⟩
  · trivial

theorem Value.capped_stable (given : List Nat → Prop) : Stable (Capped given) := by
  apply Stable.of_arrays
  · intro v hv
    unfold Capped
    split
    · exact absurd rfl (hv _ _)
    · trivial
  · exact fun typeName a state c h => (ArrayBody.restore_capped typeName state (a, c) h).1

namespace Call

def MakesArray (r : Registry) (call : String × List Value) (shape : List Nat) : Prop :=
  (∃ o typeName a, run r call.1 call.2 = .ok o ∧ o.value = .object typeName (.array a) ∧
    a.shape = shape) ∧
  (target call.1 call.2).2[1]?.bind Value.shape? = some shape

/-- A call that makes an array checks no shape. -/
theorem run_capped {r : Registry} {name : String} {args : List Value} {o : Outcome}
    (h : run r name args = .ok o) : o.value.Capped (MakesArray r (name, args)) := by
  rcases run_cases h with ⟨i, hi⟩ | ⟨name', b, hb⟩ | ⟨typeName, b, body, hb, ho⟩ | ⟨typeName, ho⟩
  · rw [hi]
    trivial
  · exact (Value.capped_stable _).ordinary _ (Builtin.apply_ordinary hb)
  · have hmade : ∀ layout, body = .array (.make layout (target name args).2) →
        o.value.Capped (MakesArray r (name, args)) := by
      rintro layout rfl
      rw [ho]
      intro hlong
      refine ⟨rfl, rfl, ⟨o, typeName, _, h, ho, rfl⟩, ?_⟩
      cases hshape : (target name args).2[1]?.bind Value.shape? with
      | none =>
        simp only [ArrayBody.make, hshape] at hlong
        exact absurd hlong (by decide)
      | some shape => simp only [ArrayBody.make, hshape, Option.getD_some]
    cases b with
    | wrappedArray => exact hmade .wrapped (Except.ok.inj hb).symm
    | inlinedArray => exact hmade .inlined (Except.ok.inj hb).symm
    | descriptor =>
      obtain ⟨d, -, rfl⟩ := Except.map_ok hb
      rw [ho]
      trivial
    | tree | attributes =>
      obtain rfl := Except.ok.inj hb
      rw [ho]
      trivial
  · rw [ho]
    trivial

end Call

namespace Machine
open Process

def callsOf (m : Machine) : List Registry → List (Registry × String × List Value)
  | [] => []
  | r :: rs => (m.called r).map (r, ·) ++ callsOf (m.load r).2 rs

theorem callsOf_append (m : Machine) (rs rs' : List Registry) :
    m.callsOf (rs ++ rs') = m.callsOf rs ++ (m.loaded rs).callsOf rs' := by
  induction rs generalizing m with
  | nil => rfl
  | cons r rs ih => rw [List.cons_append, callsOf, callsOf, loaded, ih, List.append_assoc]

def GivenBy (calls : List (Registry × String × List Value)) (shape : List Nat) : Prop :=
  ∃ c ∈ calls, Call.MakesArray c.1 c.2 shape

theorem grants_capped {calls : List (Registry × String × List Value)} {r : Registry}
    {call : String × List Value} (h : (r, call) ∈ calls) :
    Grants (Held.Throughout (Value.Capped (GivenBy calls))) r call := by
  intro n o _ hargs hrun _
  have hstable := Value.capped_stable (GivenBy calls)
  constructor
  · exact (Call.run_capped hrun).mono fun _ hgiven => ⟨_, h, hgiven⟩
  · exact Call.run_contents hstable.hereditary (fun v hv => hstable.inside (hargs v hv)) hrun

/-- Loads in a row hold no array beyond the limit but those that their calls have made so. -/
theorem loaded_capped {calls : List (Registry × String × List Value)} {m : Machine}
    {rs : List Registry} (hm : m.Holds (Held.Throughout (Value.Capped (GivenBy calls))))
    (hcalls : m.callsOf rs ⊆ calls) :
    (m.loaded rs).Holds (Held.Throughout (Value.Capped (GivenBy calls))) := by
  induction rs generalizing m with
  | nil => exact hm
  | cons r rs ih =>
    rw [callsOf, List.append_subset] at hcalls
    have hcleared : Holds (Held.Throughout (Value.Capped (GivenBy calls)))
        { m with reports := [] } := ⟨hm.stack, hm.suspended, hm.memo⟩
    refine ih (run_holds_of_called (Value.capped_stable _).kept hcleared ?_).1 hcalls.2
    exact fun call hcall => grants_capped (hcalls.1 (List.mem_map_of_mem hcall))

/-- What a load gives after loads in a row. -/
theorem load_capped {data : Bytes} {rs : List Registry} {r : Registry} {v : Value}
    (h : (((ofBytes data).loaded rs).load r).1 = .ok v) :
    v.Throughout (Value.Capped (GivenBy ((ofBytes data).callsOf (rs ++ [r])))) := by
  have hstable := Value.capped_stable (GivenBy ((ofBytes data).callsOf (rs ++ [r])))
  have hsplit := callsOf_append (ofBytes data) rs [r]
  have hm := loaded_capped (ofBytes_holds _ data) (hsplit ▸ List.subset_append_left _ _)
  have hcleared : Holds (Held.Throughout (Value.Capped _))
      { (ofBytes data).loaded rs with reports := [] } := ⟨hm.stack, hm.suspended, hm.memo⟩
  have hlast : ∀ call ∈ ((ofBytes data).loaded rs).called r,
      (r, call) ∈ (ofBytes data).callsOf (rs ++ [r]) := by
    intro call hcall
    rw [hsplit, callsOf, callsOf, List.append_nil]
    exact List.mem_append_right _ (List.mem_map_of_mem hcall)
  obtain ⟨g, hg, rfl⟩ := (run_holds_of_called hstable.kept hcleared fun call hcall =>
    grants_capped (hlast call hcall)).2 v h
  exact hstable.normalize hg

/-- An object refuses a state, and so does the instruction that was to give it. -/
theorem next_build_error {r : Registry} {m t : Machine} {op : Opcode} {c d : Cursor}
    {state g : Held} {typeName : String} {body body' : Body Value} {e : LoadError}
    (hfetch : m.cursor.fetch? = some (op, .build, c))
    (hpop : (popValue op).start { m with cursor := c } = (.ok state, t))
    (hdepth : state.depth + 1 ≤ maxNesting) (htop : t.top? = some g)
    (hobject : g.value = .object typeName body)
    (hrestore : (Body.restore typeName state.value).start (body, t.cursor) = (.error e, body', d)) :
    ∃ u, (next r).start m = (.error e, u) := by
  have hbuild : ∃ u, (buildTop op state).start t = (.error e, u) := by
    rw [buildTop, start_bind, start_target_top hdepth htop]
    dsimp only
    rw [hobject]
    dsimp only
    rw [start_bind, start_get]
    dsimp only
    rw [cursor_mapTop, hrestore]
    exact ⟨_, rfl⟩
  obtain ⟨u, hu⟩ := hbuild
  have hstep : (step r op .build).start { m with cursor := c } = (.error e, u) := by
    rw [step, start_bind, hpop]
    exact hu
  rw [start_next_of_fetch? hfetch, start_perform_of_ne_stop r op (by simp), hstep]
  exact ⟨u, rfl⟩

def Builds (r : Registry) (m : Machine) (typeName : String) (a : ArrayBody Value)
    (state : Value) : Prop :=
  ∃ k t op c u d g, Machine.after? r k { m with reports := [] } = some t ∧
    t.cursor.fetch? = some (op, .build, c) ∧
    (popValue op).start { t with cursor := c } = (.ok ⟨state, d⟩, u) ∧ d + 1 ≤ maxNesting ∧
    u.top? = some g ∧ g.value = .object typeName (.array a)

/-- A load fails when it comes to a state whose shape is beyond the limit. -/
theorem load_of_long {r : Registry} {m : Machine} {typeName : String} {a : ArrayBody Value}
    {state : Value} {shape : List Nat} (h : Builds r m typeName a state)
    (hshape : ArrayBody.stateShape? state a.layout = some shape)
    (hlong : maxDimensions < shape.length) :
    ∃ fault, (m.load r).1 = .error (.malformedState typeName fault) := by
  obtain ⟨k, t, op, c, u, d, g, hafter, hfetch, hpop, hdepth, htop, hobject⟩ := h
  obtain ⟨fault, hrefused⟩ :=
    @ArrayBody.restore_of_long typeName state shape a u.cursor hshape hlong
  have hrestore : (Body.restore typeName state).start (.array a, u.cursor) =
      (((ArrayBody.restore typeName state).start (a, u.cursor)).1,
        .array ((ArrayBody.restore typeName state).start (a, u.cursor)).2.1,
        ((ArrayBody.restore typeName state).start (a, u.cursor)).2.2) := rfl
  rw [hrefused] at hrestore
  obtain ⟨t', ht'⟩ := next_build_error (r := r) hfetch hpop hdepth htop hobject hrestore
  have hleft := fetch?_size_lt hfetch
  rw [load, run_error_of_after? hafter ht' (by omega) (Nat.le_refl _)]
  exact ⟨fault, rfl⟩

/-- Of all loads over a byte run, with any registries: an array that a load gives, at any
depth and of either layout, has at most 64 dimensions, unless a call has made it with more;
then the call was given that shape, and no state has reached the array. Without such
calls the limit holds throughout. And a load that comes to a state with a longer shape
fails for it. -/
theorem array_dimensions_limited (data : Bytes) (rs : List Registry) (r : Registry) :
    (∀ v, (((ofBytes data).loaded rs).load r).1 = .ok v →
      v.Throughout (Value.Capped (GivenBy ((ofBytes data).callsOf (rs ++ [r]))))) ∧
    (∀ v, (((ofBytes data).loaded rs).load r).1 = .ok v →
      (∀ shape, GivenBy ((ofBytes data).callsOf (rs ++ [r])) shape → shape.length ≤ 64) →
        v.Throughout fun u => ∀ typeName a, u = .object typeName (.array a) →
          a.shape.length ≤ 64) ∧
    ∀ (m : Machine) (typeName : String) (a : ArrayBody Value) (state : Value) (shape : List Nat),
      Builds r m typeName a state → ArrayBody.stateShape? state a.layout = some shape →
      64 < shape.length → ∃ fault, (m.load r).1 = .error (.malformedState typeName fault) := by
  refine ⟨fun v h => load_capped h, fun v h hgiven => ?_,
    fun m typeName a state shape h hshape hlong => load_of_long h hshape hlong⟩
  apply (load_capped h).mono
  rintro u hu typeName a rfl
  by_contra hlong
  obtain ⟨-, -, hshape⟩ := hu (Nat.not_le.mp hlong)
  exact hlong (hgiven a.shape hshape)

namespace Oversized

/-- A call of an array constructor with a shape of 65 ones, and nothing else. -/
def stream : Bytes :=
  callStream "numpy.core.multiarray".toList "_reconstruct".toList
    [.none, .tuple (List.replicate 65 (.int 1))] ++ [0x2e]

theorem load_stream : ((ofBytes stream).load .standard).1 = .ok dimensioned := by
  have hcall : Call.run .standard
      (String.ofList ("numpy.core.multiarray".toList ++ '.' :: "_reconstruct".toList))
      [.none, .tuple (List.replicate 65 (.int 1))] = .ok ⟨dimensioned, none⟩ := rfl
  have hargs := shapeArgs_fit (l := .int 1) trivial 65
  exact load_callStream reconstruct_fits.1 reconstruct_fits.2 (fun v hv => (hargs v hv).1)
    (fun v hv => Nat.lt_of_le_of_lt (hargs v hv).2 (by decide)) hcall rfl

def state : Value := .dict [
  (.str "dtype", .object descriptorTypeName (.descriptor ⟨.int32, .none, .none, none⟩)),
  (.str "shape", .tuple (List.replicate 65 (.int 1)))]

def building : Machine := midway [0x62, 0x2e] 0
  [.owned ⟨state, 2⟩, .owned ⟨.object "a.W" (.array (.make .wrapped [])), 1⟩] [] []

theorem state_shape : ArrayBody.stateShape? state .wrapped = some (List.replicate 65 1) := by
  cbv

theorem builds : Builds .empty building "a.W" (.make .wrapped []) state := by
  have hstate : state.normalize = state := by
    apply congrArg Value.dict
    apply Value.distinctEntries_of_pairwise
    apply List.pairwise_pair.mpr
    rw [← Bool.not_eq_true, Value.equal_str_eq_true_iff]
    simp
  refine ⟨0, building, .build, ⟨1, [0x2e]⟩,
    { building with
      cursor := ⟨1, [0x2e]⟩
      stack := [.owned ⟨.object "a.W" (.array (.make .wrapped [])), 1⟩] },
    2, ⟨_, 1⟩, rfl, by cbv, ?_, by decide, rfl, rfl⟩
  rw [popValue, start_bind, start_popSlot _ _ _ _ rfl]
  dsimp only
  rw [start_resolve_owned, hstate]

end Oversized

namespace Paired

/-- A call of an array constructor with a shape of one dimension. -/
def stream : Bytes := [0x28, 0x4e, 0x4b, 0x02, 0x85, 0x69, 0x61, 0x0a, 0x57, 0x0a, 0x2e]

def registry : Registry := Registry.empty.register "a.W" .inlinedArray

def args : List Value := [.none, .tuple [.int 2]]

def made : Value := .object "a.W" (.array (.make .inlined args))

theorem reached_args : (ofBytes stream).after? registry 4 =
    some (midway stream 5 [.owned ⟨.tuple [.int 2], 1⟩, .owned ⟨.none, 0⟩] [[]] []) := by
  cbv

theorem after_call (k : Nat) :
    (midway stream 5 [.owned ⟨.tuple [.int 2], 1⟩, .owned ⟨.none, 0⟩] [[]] []).after? registry
      (k + 1) = (midway stream 10 [.owned ⟨made, 2⟩] [] []).after? registry k := by
  have hname : (midway stream 5 [.owned ⟨.tuple [.int 2], 1⟩, .owned ⟨.none, 0⟩] [[]]
      []).cursor.fetch? = some (.inst, .callNamed "a.W", ⟨10, stream.drop 10⟩) := by cbv
  have hplain : ∀ v ∈ args, v.Plain := fun v hv => (shapeArgs_fit (l := .int 2) trivial 1 v hv).1
  have hnesting : (Value.tuple [.int 2]).nesting = 1 := by
    rw [Value.nesting_of_nests rfl]
    simp [Value.innerNesting, Value.children, Value.nesting_leaf]
  have hlevels : Value.innerNesting args = 1 := by
    simp [Value.innerNesting, args, hnesting, Value.nesting_leaf]
  have hstack : [Slot.owned ⟨.tuple [.int 2], 1⟩, .owned ⟨.none, 0⟩] =
      (args.map holding).reverse := by
    simp [args, holding, hnesting, Value.nesting_leaf]
  have hcall : Call.run registry "a.W" args = .ok ⟨made, none⟩ := rfl
  rw [after?_callNamed _ hname hplain hstack rfl hcall (by rw [hlevels]; decide), hlevels]
  rfl

theorem load_stream : ((ofBytes stream).load registry).1 = .ok made := by
  have hmade : (ofBytes stream).after? registry 5 =
      some (midway stream 10 [.owned ⟨made, 2⟩] [] []) := by
    rw [after?_add (k := 4) reached_args 1, after_call]
    rfl
  change (run registry 11 (ofBytes stream)).1 = _
  rw [run_of_after? hmade 6]
  cbv

theorem called_stream : (ofBytes stream).called registry = [("a.W", args)] := by
  have hnone : calledBy registry 4 (ofBytes stream) = [] := by cbv
  have hargs : calledNext
      (midway stream 5 [.owned ⟨.tuple [.int 2], 1⟩, .owned ⟨.none, 0⟩] [[]] []) =
      some ("a.W", args) := by cbv
  have hrest : calledBy registry 6 (midway stream 10 [.owned ⟨made, 2⟩] [] []) = [] := by cbv
  change calledBy registry (4 + (1 + 6)) (ofBytes stream) = _
  rw [calledBy_of_after? reached_args, calledBy_of_after? (after_call 0), hnone, hrest, calledBy,
    hargs]
  cases (next registry).start _ with
  | mk result m => rcases result with _ | _ | _ <;> rfl

theorem given_stream (shape : List Nat)
    (h : GivenBy ((ofBytes stream).callsOf [registry]) shape) : shape.length ≤ 64 := by
  obtain ⟨c, hc, -, hshape⟩ := h
  rw [callsOf, callsOf, List.append_nil, called_stream] at hc
  obtain rfl := List.mem_singleton.mp hc
  obtain rfl := Option.some.inj (hshape : some [2] = some shape)
  decide

end Paired

/-- A constructor gives the array as many dimensions as it is called with. -/
theorem dimensions_beyond_limit :
    ((ofBytes Oversized.stream).load .standard).1 = .ok dimensioned ∧
      ∃ typeName a, dimensioned = .object typeName (.array a) ∧ 64 < a.shape.length :=
  ⟨Oversized.load_stream, _, _, rfl, by decide⟩

theorem array_dimensions_limited_paired :
    (((ofBytes Oversized.stream).load .standard).1 = .ok dimensioned ∧
      dimensioned.Throughout
        (Value.Capped (GivenBy ((ofBytes Oversized.stream).callsOf [.standard])))) ∧
    (((ofBytes Paired.stream).load Paired.registry).1 = .ok Paired.made ∧
      (∀ shape, GivenBy ((ofBytes Paired.stream).callsOf [Paired.registry]) shape →
        shape.length ≤ 64) ∧
      Paired.made.Throughout fun u => ∀ typeName a, u = .object typeName (.array a) →
        a.shape.length ≤ 64) ∧
    Builds .empty Oversized.building "a.W" (.make .wrapped []) Oversized.state ∧
      ArrayBody.stateShape? Oversized.state .wrapped = some (List.replicate 65 1) ∧
      64 < (List.replicate 65 1).length ∧
      ∃ fault, (Oversized.building.load .empty).1 = .error (.malformedState "a.W" fault) := by
  have hlong : 64 < (List.replicate 65 1).length := by decide
  obtain ⟨hcapped, -, -⟩ := array_dimensions_limited Oversized.stream [] .standard
  obtain ⟨-, hlimited, -⟩ := array_dimensions_limited Paired.stream [] Paired.registry
  obtain ⟨-, -, hrefused⟩ := array_dimensions_limited [] [] .empty
  refine ⟨⟨Oversized.load_stream, ?_⟩, ⟨Paired.load_stream, Paired.given_stream, ?_⟩,
    Oversized.builds, Oversized.state_shape, hlong, ?_⟩
  · exact hcapped _ Oversized.load_stream
  · exact hlimited _ Paired.load_stream Paired.given_stream
  · exact hrefused _ _ _ _ _ Oversized.builds Oversized.state_shape hlong

end Machine

end PickledModel
