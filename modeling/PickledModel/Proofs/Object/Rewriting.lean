import PickledModel.Proofs.Bytes.Tracking
import PickledModel.Proofs.Object.Contents

/-! Values rewritten inside. A rewriting keeps leaves and containers and goes on
inside them, and keeps objects too, or takes the attributes of those under some
names. Restoring an object does not tell a state from a rewritten one: it looks
at leaves, at the items of sequences and under the text keys of dicts. -/

set_option autoImplicit false

namespace PickledModel

structure Rewriting (f : Value → Value) (erased : String → Prop) (good : Value → Prop) : Prop where
  hereditary : Hereditary good
  leaf : ∀ l, f (.leaf l) = .leaf l
  sequence : ∀ kind items, f (.sequence kind items) = .sequence kind (items.map f)
  dict : ∀ entries, f (.dict entries) = .dict (entries.map fun e => (f e.1, f e.2))
  kept : ∀ typeName body, ¬ erased typeName → f (.object typeName body) = .object typeName (body.map f)
  lost : ∀ typeName body, erased typeName → f (.object typeName body) = .object typeName .unresolved
  attributes : ∀ typeName body, erased typeName → good (.object typeName body) →
    ∃ entries, body = .attributes entries

namespace Rewriting

variable {f : Value → Value} {erased : String → Prop} {good : Value → Prop}

theorem object_cases (hf : Rewriting f erased good) (typeName : String) (body : Body Value) :
    ∃ body', f (.object typeName body) = .object typeName body' := by
  by_cases h : erased typeName
  · exact ⟨_, hf.lost typeName body h⟩
  · exact ⟨_, hf.kept typeName body h⟩

/-- What does not look inside containers and objects gives the same for a rewritten value. -/
theorem outside (hf : Rewriting f erased good) {β : Type} {g : Value → β}
    (hsequence : ∀ kind items items', g (.sequence kind items) = g (.sequence kind items'))
    (hdict : ∀ entries entries', g (.dict entries) = g (.dict entries'))
    (hobject : ∀ typeName body body', g (.object typeName body) = g (.object typeName body'))
    (v : Value) : g (f v) = g v := by
  cases v with
  | leaf l => rw [hf.leaf]
  | sequence kind items =>
    rw [hf.sequence]
    exact hsequence kind _ _
  | dict entries =>
    rw [hf.dict]
    exact hdict _ _
  | object typeName body =>
    obtain ⟨body', h⟩ := hf.object_cases typeName body
    rw [h]
    exact hobject typeName _ _

theorem kind (hf : Rewriting f erased good) (v : Value) : (f v).kind = v.kind :=
  hf.outside (fun _ _ _ => rfl) (fun _ _ => rfl) (fun _ _ _ => rfl) v

theorem nests (hf : Rewriting f erased good) (v : Value) : (f v).nests = v.nests :=
  hf.outside (fun _ _ _ => rfl) (fun _ _ => rfl) (fun _ _ _ => rfl) v

theorem isNone (hf : Rewriting f erased good) (v : Value) : (f v).isNone = v.isNone :=
  hf.outside (fun _ _ _ => rfl) (fun _ _ => rfl) (fun _ _ _ => rfl) v

/-- A view of leaves alone gives the same for a rewritten value. -/
theorem view (hf : Rewriting f erased good) {β : Type} {g : Value → Option β}
    (hg : ∀ v : Value, v.nests → g v = none) (v : Value) : g (f v) = g v := by
  cases h : v.nests with
  | true => rw [hg v h, hg (f v) (by rw [hf.nests, h])]
  | false =>
    cases v with
    | leaf l => rw [hf.leaf]
    | _ => cases h

theorem string? (hf : Rewriting f erased good) (v : Value) : (f v).string? = v.string? :=
  hf.view (by rintro (_ | _ | _ | _) h <;> first | rfl | cases h) v

theorem int64? (hf : Rewriting f erased good) (v : Value) : (f v).int64? = v.int64? :=
  hf.view (by rintro (_ | _ | _ | _) h <;> first | rfl | cases h) v

theorem bool? (hf : Rewriting f erased good) (v : Value) : (f v).bool? = v.bool? :=
  hf.view (by rintro (_ | _ | _ | _) h <;> first | rfl | cases h) v

theorem bytes? (hf : Rewriting f erased good) (v : Value) : (f v).bytes? = v.bytes? :=
  hf.view (by rintro (_ | _ | _ | _) h <;> first | rfl | cases h) v

theorem items? (hf : Rewriting f erased good) (v : Value) :
    (f v).items? = v.items?.map (·.map f) := by
  cases v with
  | leaf l => rw [hf.leaf]; rfl
  | sequence kind items =>
    rw [hf.sequence]
    cases kind <;> rfl
  | dict entries => rw [hf.dict]; rfl
  | object typeName body =>
    obtain ⟨body', h⟩ := hf.object_cases typeName body
    rw [h]
    rfl

theorem shape? (hf : Rewriting f erased good) (v : Value) : (f v).shape? = v.shape? := by
  rw [Value.shape?, Value.shape?, hf.items?]
  cases v.items? with
  | none => rfl
  | some items =>
    change (items.map f).mapM _ = items.mapM _
    rw [List.mapM_map]
    congr 1
    funext d
    simp only [Function.comp, hf.int64?]

theorem get? (hf : Rewriting f erased good) (v : Value) (key : String) :
    (f v).get? key = (v.get? key).map f := by
  cases v with
  | leaf l => rw [hf.leaf]; rfl
  | sequence kind items => rw [hf.sequence]; rfl
  | dict entries =>
    rw [hf.dict]
    simp only [Value.get?, List.find?_map, Option.map_map, Function.comp_def, hf.string?]
  | object typeName body =>
    obtain ⟨body', h⟩ := hf.object_cases typeName body
    rw [h]
    rfl

theorem getD (hf : Rewriting f erased good) (v : Value) (key : String) :
    ((f v).get? key).getD .none = f ((v.get? key).getD .none) := by
  rw [hf.get?]
  cases v.get? key with
  | none => exact (hf.leaf _).symm
  | some w => rfl

theorem bind_get? (hf : Rewriting f erased good) {β : Type} {g : Value → Option β}
    (hg : ∀ v, g (f v) = g v) (v : Value) (key : String) :
    ((f v).get? key).bind g = (v.get? key).bind g := by
  rw [hf.get?]
  cases v.get? key with
  | none => rfl
  | some w => exact hg w

theorem descriptor? (hf : Rewriting f erased good) {v : Value} (hv : good v) :
    (f v).descriptor? = v.descriptor?.map (·.map f) := by
  cases v with
  | leaf l => rw [hf.leaf]; rfl
  | sequence kind items => rw [hf.sequence]; rfl
  | dict entries => rw [hf.dict]; rfl
  | object typeName body =>
    by_cases h : erased typeName
    · obtain ⟨entries, rfl⟩ := hf.attributes typeName body h hv
      rw [hf.lost _ _ h]
      rfl
    · rw [hf.kept _ _ h]
      cases body <;> rfl

theorem expectDescriptor (hf : Rewriting f erased good) {typeName : String} {o : Option Value}
    {d : Descriptor Value} (ho : ∀ v, o = some v → good v)
    (h : ArrayBody.expectDescriptor typeName o = .ok d) :
    ArrayBody.expectDescriptor typeName (o.map f) = .ok (d.map f) := by
  cases o with
  | none => cases h
  | some v =>
    simp only [ArrayBody.expectDescriptor, Option.map_some, Option.bind_some] at h ⊢
    rw [hf.descriptor? (ho v rfl)]
    cases hd : v.descriptor? with
    | none => simp [hd] at h
    | some e =>
      simp only [hd, Except.ok.injEq] at h
      rw [h]
      rfl

theorem expectShape (hf : Rewriting f erased good) {typeName : String} (o : Option Value) :
    ArrayBody.expectShape typeName (o.map f) = ArrayBody.expectShape typeName o := by
  cases o with
  | none => rfl
  | some v => simp only [ArrayBody.expectShape, Option.map_some, Option.bind_some, hf.shape?]

theorem isPadded (hf : Rewriting f erased good) (v : Value) :
    ArrayBody.isPadded (f v) = ArrayBody.isPadded v := by
  rw [ArrayBody.isPadded, ArrayBody.isPadded, hf.get?]
  cases v.get? "numpy_array_alignment_bytes" with
  | none => rfl
  | some w => exact congrArg not (hf.isNone w)

end Rewriting

theorem Body.map_id (body : Body Value) : body.map id = body := by
  have hdescriptor : ∀ d : Descriptor Value, d.map id = d := by
    rintro ⟨_, _, _, _ | _⟩ <;> rfl
  cases body with
  | descriptor d => rw [Body.map, hdescriptor]
  | array a =>
    have hmap : a.descriptor.map (Descriptor.map id) = a.descriptor := by
      cases a.descriptor with
      | none => rfl
      | some d => exact congrArg some (hdescriptor d)
    rw [Body.map, ArrayBody.map, hmap]
    rfl
  | tree t => rfl
  | attributes entries => exact congrArg attributes (List.map_id entries)
  | unresolved => rfl

theorem Rewriting.identity : Rewriting id (fun _ => False) fun _ => True where
  hereditary := ⟨trivial, fun _ _ _ _ => trivial⟩
  leaf _ := rfl
  sequence _ items := by rw [List.map_id]; rfl
  dict entries := congrArg Value.dict (List.map_id entries).symm
  kept _ body _ := by rw [Body.map_id]; rfl
  lost _ _ h := h.elim
  attributes _ _ h := h.elim

namespace Track
open Process

variable {f : Value → Value} {erased : String → Prop} {good : Value → Prop} {T : Track}

abbrev Rewritten (T : Track) (f : Value → Value) (s s' : Body Value × Cursor) : Prop :=
  s'.1 = s.1.map f ∧ T.related s.2 s'.2

abbrev RewrittenArray (T : Track) (f : Value → Value) (s s' : ArrayBody Value × Cursor) : Prop :=
  s'.1 = s.1.map f ∧ T.related s.2 s'.2

theorem skipPadding : T.Along ArrayBody.skipPadding :=
  (T.composed.number UInt8.ofNat).bind fun _ => read (T.reads.skip _)

theorem restoreWrapped (hf : Rewriting f erased good) {typeName : String} {state : Value}
    (hs : good state) :
    Follows (RewrittenArray T f) (RewrittenArray T f) T.stops
      (ArrayBody.restoreWrapped typeName state) (ArrayBody.restoreWrapped typeName (f state))
      fun _ _ => True := by
  have hstream : ∀ {α : Type} {p : Process Cursor α}, T.Along p →
      Follows (RewrittenArray T f) (RewrittenArray T f) T.stops
        (p.onSecond : Process (ArrayBody Value × Cursor) α) p.onSecond Eq :=
    fun h => h.on (fun _ _ hi => hi.2) fun _ _ _ _ hi hc => ⟨hi.1, hc⟩
  unfold ArrayBody.restoreWrapped
  rw [hf.kind]
  by_cases hk : state.kind ≠ .dict
  · rw [if_pos hk, if_pos hk]
    exact Follows.throw_bind _ _ _
  rw [if_neg hk, if_neg hk]
  apply Follows.bind (q := fun d d' => d' = d.map f)
  · apply Follows.ofExcept
    intro d hd
    refine ⟨d.map f, ?_, rfl⟩
    rw [hf.get?]
    exact hf.expectDescriptor (fun v hv => hf.hereditary.get hs hv) hd
  rintro d _ rfl
  apply Follows.bind (q := Eq)
  · apply Follows.ofExcept
    intro shape hshape
    refine ⟨shape, ?_, rfl⟩
    rw [hf.get?, hf.expectShape]
    exact hshape
  rintro shape _ rfl
  apply Follows.bind (q := fun _ _ => True) (j := RewrittenArray T f)
  · apply Follows.modify
    rintro ⟨a, c⟩ ⟨_, c'⟩ ⟨rfl, hc⟩
    refine ⟨?_, hc⟩
    simp only [ArrayBody.map, hf.getD, hf.bind_get? hf.string?, hf.bind_get? hf.bool?]
  intro _ _ _
  rw [hf.isPadded, show (d.map f).elementType = d.elementType from rfl]
  cases Shape.product? d.elementType.itemSize shape with
  | none => exact Follows.throw _ _
  | some size =>
    have fill : Follows (RewrittenArray T f) (RewrittenArray T f) T.stops
        (do
          let data ← (Process.read (Cursor.take size)).onSecond
          modify fun s => ({ s.1 with data, descriptor := some d, shape }, s.2))
        (do
          let data ← (Process.read (Cursor.take size)).onSecond
          modify fun s => ({ s.1 with data, descriptor := some (d.map f), shape }, s.2))
        fun _ _ => True := by
      apply (hstream (read (T.take size))).bind
      rintro data _ rfl
      apply Follows.modify
      rintro ⟨a, c⟩ ⟨_, c'⟩ ⟨rfl, hc⟩
      exact ⟨rfl, hc⟩
    by_cases hpad : ArrayBody.isPadded state = true
    · simp only [hpad, if_true]
      exact (hstream skipPadding).bind fun _ _ _ => fill
    · simp only [hpad]
      exact fill

theorem restoreInlined (hf : Rewriting f erased good) {typeName : String} {state : Value}
    (hs : good state) :
    Follows (fun a a' : ArrayBody Value => a' = a.map f) (fun a a' => a' = a.map f) T.stops
      (ArrayBody.restoreInlined typeName state) (ArrayBody.restoreInlined typeName (f state))
      fun _ _ => True := by
  unfold ArrayBody.restoreInlined
  rw [hf.items?]
  cases hi : state.items? with
  | none => exact Follows.throw _ _
  | some items =>
    rw [Option.map_some]
    dsimp only
    split
    · next heq => cases heq
    · next version shape typeCode columnMajor raw heq =>
      obtain rfl := Option.some.inj heq
      have hcode : good typeCode := hf.hereditary.items hs hi typeCode (by simp)
      simp only [List.map_cons, List.map_nil]
      apply Follows.bind (q := fun d d' => d' = d.map f)
      · apply Follows.ofExcept
        intro d hd
        exact ⟨d.map f, hf.expectDescriptor (o := some typeCode)
          (fun v hv => Option.some.inj hv ▸ hcode) hd, rfl⟩
      rintro d _ rfl
      apply Follows.bind (q := Eq)
      · apply Follows.ofExcept
        intro shape' hshape
        exact ⟨shape', (hf.expectShape (some shape)).trans hshape, rfl⟩
      rintro shape' _ rfl
      rw [hf.bool?, hf.int64?, hf.bytes?]
      apply Follows.bind (q := fun _ _ => True) (j := fun a a' => a' = a.map f)
      · apply Follows.modify
        rintro a _ rfl
        rfl
      intro _ _ _
      cases raw.bytes? with
      | none => exact Follows.throw _ _
      | some data =>
        apply Follows.modify
        rintro a _ rfl
        rfl
    · exact Follows.throw _ _

theorem restoreArray (hf : Rewriting f erased good) (typeName : String) {state : Value}
    (hs : good state) :
    Follows (RewrittenArray T f) (RewrittenArray T f) T.stops
      (ArrayBody.restore typeName state) (ArrayBody.restore typeName (f state)) fun _ _ => True := by
  apply Follows.get.bind
  rintro ⟨a, c⟩ ⟨_, c'⟩ ⟨rfl, hc⟩
  dsimp only
  rw [show (a.map f).layout = a.layout from rfl]
  cases a.layout with
  | wrapped => exact restoreWrapped hf hs
  | inlined =>
    exact (restoreInlined (T := T) hf hs).on (fun _ _ hi => hi.1) fun _ _ _ _ hi ha => ⟨ha, hi.2⟩

abbrev RewrittenMembers (f : Value → Value) (ms ms' : List (String × Value)) : Prop :=
  ms' = Members.mapValues f ms

theorem setAttributes (hf : Rewriting f erased good) (typeName : String)
    (entries : List (Value × Value)) :
    Follows (RewrittenMembers f) (RewrittenMembers f) T.stops
      (PickledModel.setAttributes typeName entries)
      (PickledModel.setAttributes typeName (entries.map fun e => (f e.1, f e.2)))
      fun _ _ => True := by
  induction entries with
  | nil => exact Follows.pure trivial
  | cons e entries ih =>
    obtain ⟨k, v⟩ := e
    rw [List.map_cons, PickledModel.setAttributes, PickledModel.setAttributes, hf.string?]
    cases k.string? with
    | none => exact Follows.throw_bind _ _ _
    | some name =>
      apply Follows.bind (q := fun _ _ => True) (j := RewrittenMembers f) _ fun _ _ _ => ih
      apply Follows.modify
      rintro ms _ rfl
      exact (Members.mapValues_set f name v ms).symm

theorem mergeState (hf : Rewriting f erased good) (typeName : String) (state : Value) :
    Follows (RewrittenMembers f) (RewrittenMembers f) T.stops
      (PickledModel.mergeState typeName state) (PickledModel.mergeState typeName (f state))
      fun _ _ => True := by
  fun_induction PickledModel.mergeState typeName state with
  | case1 =>
    rw [hf.leaf, PickledModel.mergeState]
    exact Follows.pure trivial
  | case2 entries =>
    rw [hf.dict, PickledModel.mergeState]
    exact setAttributes hf typeName entries
  | case3 state slots ih ih' =>
    rw [hf.sequence, List.map_cons, List.map_cons, List.map_nil, PickledModel.mergeState]
    exact ih.bind fun _ _ _ => ih'
  | case4 v => exact Follows.throw _ _

theorem restoreDescriptor (hf : Rewriting f erased good) {d d' : Descriptor Value} {state : Value}
    (h : d.restore state = .ok d') : (d.map f).restore (f state) = .ok (d'.map f) := by
  unfold Descriptor.restore at h ⊢
  rw [hf.items?]
  cases hi : state.items? with
  | none => simp [hi] at h
  | some items =>
    simp only [hi] at h
    split at h
    · next heq => cases heq
    · next heq =>
      obtain rfl := Option.some.inj heq
      cases h
      rfl
    · cases h

theorem restoreTree (hf : Rewriting f erased good) {t t' : TreeBody Value} {typeName : String}
    {state : Value} (h : t.restore typeName state = .ok t') :
    (t.map f).restore typeName (f state) = .ok (t'.map f) := by
  unfold TreeBody.restore at h ⊢
  rw [hf.kind]
  split at h
  · next hk =>
    cases h
    rw [if_pos hk]
    simp only [TreeBody.map, hf.getD]
  · cases h

/-- Given a rewritten state, a rewritten body becomes the rewritten one of what
the body becomes, or the load stops. -/
theorem restore (hf : Rewriting f erased good) (typeName : String) {state : Value}
    (hs : good state) :
    Follows (Rewritten T f) (Rewritten T f) T.stops
      (Body.restore typeName state) (Body.restore typeName (f state)) fun _ _ => True := by
  rintro ⟨body, c⟩ ⟨_, c'⟩ ⟨rfl, hc⟩ u s h
  change Body.restore typeName state (body, c) = _ at h
  change Meets _ _ _ _ _ (Body.restore typeName (f state) (body.map f, c'))
  cases body with
  | descriptor d =>
    rw [Body.restore] at h
    cases hd : d.restore state with
    | error e =>
      simp only [hd] at h
      cases h
    | ok d' =>
      simp only [hd] at h
      cases h
      rw [Body.map, Body.restore, restoreDescriptor hf hd]
      exact ⟨trivial, rfl, hc⟩
  | array a =>
    have harray := restoreArray (T := T) hf typeName hs (a, c) (a.map f, c') ⟨rfl, hc⟩
    rw [Body.restore] at h
    rcases hr : (ArrayBody.restore typeName state).start (a, c) with ⟨r, a₁, c₁⟩
    simp only [hr] at h
    cases h
    have hmeets := harray _ _ hr
    rw [Body.map, Body.restore]
    rcases hr' : (ArrayBody.restore typeName (f state)).start (a.map f, c') with ⟨_ | b, a₂, c₂⟩ <;>
      rw [hr'] at hmeets
    · exact hmeets
    · obtain ⟨-, rfl, hc₂⟩ := hmeets
      exact ⟨trivial, rfl, hc₂⟩
  | tree t =>
    rw [Body.restore] at h
    cases ht : t.restore typeName state with
    | error e =>
      simp only [ht] at h
      cases h
    | ok t' =>
      simp only [ht] at h
      cases h
      rw [Body.map, Body.restore, restoreTree hf ht]
      exact ⟨trivial, rfl, hc⟩
  | attributes entries =>
    have hmerge := mergeState (T := T) hf typeName state entries (Members.mapValues f entries) rfl
    rw [Body.restore] at h
    rcases hr : (PickledModel.mergeState typeName state).start entries with ⟨r, entries₁⟩
    simp only [hr] at h
    cases h
    have hmeets := hmerge _ _ hr
    change Meets _ _ _ _ _ (Body.restore typeName (f state)
      (.attributes (Members.mapValues f entries), c'))
    rw [Body.restore]
    rcases hr' : (PickledModel.mergeState typeName (f state)).start
      (Members.mapValues f entries) with ⟨_ | b, entries₂⟩ <;> rw [hr'] at hmeets
    · exact hmeets
    · obtain ⟨-, rfl⟩ := hmeets
      exact ⟨trivial, rfl, hc⟩
  | unresolved =>
    cases h
    exact ⟨trivial, rfl, hc⟩

end Track

end PickledModel
