import PickledModel.Proofs.Object.Restoration
import PickledModel.Proofs.Sharing.Unfolding
import PickledModel.Proofs.Value.Nesting

/-! Giving an object its state, done with references and done with the values
they stand for, has the same result. -/

set_option autoImplicit false

namespace PickledModel

theorem DescriptorState.ofList?_map {α β : Type} (f : α → β) (xs : List α) :
    DescriptorState.ofList? (xs.map f) = (DescriptorState.ofList? xs).map (DescriptorState.map f) := by
  match xs with
  | [] | [_] | [_, _] | [_, _, _] | [_, _, _, _] | [_, _, _, _, _] | [_, _, _, _, _, _]
  | [_, _, _, _, _, _, _] | [_, _, _, _, _, _, _, _] | _ :: _ :: _ :: _ :: _ :: _ :: _ :: _ :: _ :: _ => rfl

theorem DescriptorState.children_of_ofList? {α : Type} {xs : List α} {s : DescriptorState α}
    (h : DescriptorState.ofList? xs = some s) : s.children = xs := by
  unfold DescriptorState.ofList? at h
  split at h
  · obtain rfl := Option.some.inj h
    rfl
  · cases h

theorem Descriptor.restore_ok {d d' : Descriptor Value} {state : Value}
    (h : d.restore state = .ok d') :
    ∃ s, state.items?.bind DescriptorState.ofList? = some s ∧ d' = { d with state := some s } := by
  unfold Descriptor.restore at h
  split at h
  · cases h
  · next heq =>
    cases h
    rw [heq]
    exact ⟨_, rfl, rfl⟩
  · cases h

namespace Heap

variable {h : Heap} {cells : List Nat} {r : Ref}

namespace Settled

theorem restoreDescriptor_tree (hs : h.Settled cells) (hr : r.In cells) {d : Descriptor Ref}
    (hd : ∀ c ∈ d.children, c.In cells) {v : Descriptor Value}
    (hv : (d.map h.tree).restore (h.tree r) = .ok v) :
    ∃ d', h.restoreDescriptor d r = some d' ∧ v = d'.map h.tree ∧
      ∀ c ∈ d'.children, c.In cells := by
  obtain ⟨s, hitems, rfl⟩ := Descriptor.restore_ok hv
  rw [hs.items?_tree hr] at hitems
  cases hi : h.items? r with
  | none => simp [hi] at hitems
  | some items =>
    simp only [hi, Option.map_some, Option.bind_some, DescriptorState.ofList?_map] at hitems
    obtain ⟨s', hs', rfl⟩ := Option.map_eq_some_iff.mp hitems
    refine ⟨{ d with state := some s' }, ?_, rfl, ?_⟩
    · simp [restoreDescriptor, hi, hs']
    · have hin := hs.items?_in hr hi
      rw [← DescriptorState.children_of_ofList? hs'] at hin
      simp only [Descriptor.children, List.forall_mem_cons] at hd ⊢
      exact ⟨hd.1, hd.2.1, hin⟩

theorem expectDescriptor_tree (hs : h.Settled cells) {typeName : String} {o : Option Ref}
    (ho : ∀ r, o = some r → r.In cells) {v : Descriptor Value}
    (hv : ArrayBody.expectDescriptor typeName (o.map h.tree) = .ok v) :
    ∃ d, o.bind h.descriptor? = some d ∧ v = d.map h.tree ∧ ∀ c ∈ d.children, c.In cells := by
  cases o with
  | none => cases hv
  | some r =>
    have hr := ho r rfl
    rw [ArrayBody.expectDescriptor, Option.map_some, Option.bind_some, hs.descriptor?_tree hr] at hv
    cases hd : h.descriptor? r with
    | none => simp [hd] at hv
    | some d =>
      simp only [hd, Option.map_some, Except.ok.injEq] at hv
      exact ⟨d, hd, hv.symm, hs.descriptor?_in hr hd⟩

theorem expectShape_tree (hs : h.Settled cells) {typeName : String} {o : Option Ref}
    (ho : ∀ r, o = some r → r.In cells) {shape : List Nat}
    (hv : ArrayBody.expectShape typeName (o.map h.tree) = .ok shape) :
    o.bind h.arrayShape? = some shape := by
  cases o with
  | none => cases hv
  | some r =>
    rw [ArrayBody.expectShape, Option.map_some, Option.bind_some, hs.shape?_tree (ho r rfl)] at hv
    rw [Option.bind_some, arrayShape?]
    cases hshape : h.shape? r with
    | none => simp [hshape] at hv
    | some found =>
      simp only [hshape] at hv
      by_cases hle : found.length ≤ maxDimensions
      · rw [if_pos hle] at hv
        cases hv
        simp [Option.filter, hle]
      · rw [if_neg hle] at hv
        cases hv

theorem isPadded_tree (hs : h.Settled cells) (hr : r.In cells) {entries : List (Ref × Ref)}
    (he : h.entries? r = some entries) :
    ArrayBody.isPadded (h.tree r) = isPadded (members entries) := by
  rw [ArrayBody.isPadded, hs.get?_tree hr he, isPadded]
  cases hm : Members.get? "numpy_array_alignment_bytes" (members entries) with
  | none => rfl
  | some v =>
    have hv := Members.get?_forall (members_in (hs.entries?_in hr he)) hm
    simp only [Option.map_some, hs.isNone_tree hv]
    by_cases hn : v = .leaf .none <;> simp [hn]

theorem getD_in (hs : h.Settled cells) (hr : r.In cells) {entries : List (Ref × Ref)}
    (he : h.entries? r = some entries) (key : String) :
    ((Members.get? key (members entries)).getD (.leaf .none)).In cells := by
  cases hm : Members.get? key (members entries) with
  | none => trivial
  | some v => exact Members.get?_forall (members_in (hs.entries?_in hr he)) hm

theorem bind_get?_tree {β : Type} {f : Value → Option β} (hs : h.Settled cells) (hr : r.In cells)
    {entries : List (Ref × Ref)} (he : h.entries? r = some entries) (key : String)
    (hf : ∀ v : Value, v.nests → f v = none) :
    ((h.tree r).get? key).bind f = (Members.get? key (members entries)).bind (Ref.read f) := by
  rw [hs.get?_tree hr he]
  cases hm : Members.get? key (members entries) with
  | none => rfl
  | some v =>
    have hv := Members.get?_forall (members_in (hs.entries?_in hr he)) hm
    exact hs.read_tree hv hf

open Process in
theorem restoreWrapped_tree (hs : h.Settled cells) (hr : r.In cells) {typeName : String}
    {a : ArrayBody Ref} {c c' : Cursor} {v : ArrayBody Value}
    (hv : (ArrayBody.restoreWrapped typeName (h.tree r)).start (a.map h.tree, c) =
      (.ok (), (v, c'))) :
    ∃ a', h.restoreWrapped a r c = some (a', c') ∧ v = a'.map h.tree ∧
      ∀ c ∈ a'.children, c.In cells := by
  obtain ⟨hkind, dv, shape, size, data, hd, hshape, hsize, hpayload, rfl⟩ :=
    ArrayBody.restoreWrapped_eq_ok_iff.mp hv
  obtain ⟨entries, he⟩ := hs.exists_entries? hr hkind
  have hmembers := members_in (hs.entries?_in hr he)
  rw [hs.get?_tree hr he] at hd hshape
  obtain ⟨d, hmade, rfl, hin⟩ :=
    hs.expectDescriptor_tree (fun w hw => Members.get?_forall hmembers hw) hd
  have hshape := hs.expectShape_tree (fun w hw => Members.get?_forall hmembers hw) hshape
  have hsize' : Shape.product? d.elementType.itemSize shape = some size := hsize
  obtain ⟨c₁, hskip, htake⟩ := ArrayBody.readPayload_eq_ok_iff.mp hpayload
  rw [hs.isPadded_tree hr he] at hskip
  refine ⟨{ a with
    subtype := (Members.get? "subclass" (members entries)).getD (.leaf .none)
    order := (Members.get? "order" (members entries)).bind (Ref.read Value.string?)
    allowMmap := (Members.get? "allow_mmap" (members entries)).bind (Ref.read Value.bool?)
    data, descriptor := some d, shape }, ?_, ?_, ?_⟩
  · simp only [restoreWrapped, he, hmade, hshape, hsize', Option.bind_eq_bind, Option.bind_some,
      Option.pure_def]
    by_cases hpad : isPadded (members entries) = true
    · rw [if_pos hpad] at hskip ⊢
      simp only [hskip, htake, Option.bind_some]
    · rw [if_neg hpad] at hskip ⊢
      cases hskip
      simp only [htake, Option.bind_some]
  · rw [hs.getD_tree hr he, hs.bind_get?_tree hr he _ fun _ => Value.string?_of_nests,
      hs.bind_get?_tree hr he _ fun _ => Value.bool?_of_nests]
    rfl
  · exact List.forall_mem_cons.mpr ⟨hs.getD_in hr he _, hin⟩

open Process in
theorem restoreInlined_tree (hs : h.Settled cells) (hr : r.In cells) {typeName : String}
    {a : ArrayBody Ref} {v : ArrayBody Value}
    (hv : (ArrayBody.restoreInlined typeName (h.tree r)).start (a.map h.tree) = (.ok (), v)) :
    ∃ a', h.restoreInlined a r = some a' ∧ v = a'.map h.tree ∧
      ((∀ c ∈ a.children, c.In cells) → ∀ c ∈ a'.children, c.In cells) := by
  obtain ⟨version, dims, code, flag, raw, dv, shape, data, hitems, hd, hshape, hdata, rfl⟩ :=
    ArrayBody.restoreInlined_eq_ok_iff.mp hv
  rw [hs.items?_tree hr, Option.map_eq_some_iff] at hitems
  obtain ⟨items, hi, hmap⟩ := hitems
  have hitems := hs.items?_in hr hi
  simp only [List.map_eq_cons_iff, List.map_eq_nil_iff] at hmap
  obtain ⟨version, _, rfl, rfl, dims, _, rfl, rfl, code, _, rfl, rfl, flag, _, rfl, rfl, raw, _,
    rfl, rfl, rfl⟩ := hmap
  simp only [List.forall_mem_cons] at hitems
  obtain ⟨hversion, hdims, hcode, hflag, hraw, -⟩ := hitems
  obtain ⟨d, hmade, rfl, hin⟩ := hs.expectDescriptor_tree (o := some code)
    (fun w hw => Option.some.inj hw ▸ hcode) hd
  have hshape := hs.expectShape_tree (o := some dims)
    (fun w hw => Option.some.inj hw ▸ hdims) hshape
  rw [hs.read_tree hraw fun _ => Value.bytes?_of_nests] at hdata
  refine ⟨{ a with
    shape, version := version.read Value.int64?,
    order := some (if (flag.read Value.bool?).getD false then "F" else "C"), data,
    descriptor := some d }, ?_, ?_, ?_⟩
  · rw [Option.bind_some] at hmade hshape
    simp only [restoreInlined, hi, hmade, hshape, hdata, Option.bind_eq_bind, Option.bind_some,
      Option.pure_def]
  · rw [hs.read_tree hversion fun _ => Value.int64?_of_nests,
      hs.read_tree hflag fun _ => Value.bool?_of_nests]
    rfl
  · intro ha
    exact List.forall_mem_cons.mpr ⟨ha a.subtype (by simp [ArrayBody.children]), hin⟩

theorem restoreTree_tree (hs : h.Settled cells) (hr : r.In cells) {typeName : String}
    {t : TreeBody Ref} {v : TreeBody Value}
    (hv : (t.map h.tree).restore typeName (h.tree r) = .ok v) :
    ∃ t', h.restoreTree t r = some t' ∧ v = t'.map h.tree ∧
      ((∀ c ∈ t.children, c.In cells) → ∀ c ∈ t'.children, c.In cells) := by
  rw [TreeBody.restore] at hv
  by_cases hk : (h.tree r).kind = .dict
  · rw [if_pos hk] at hv
    cases hv
    obtain ⟨entries, he⟩ := hs.exists_entries? hr hk
    refine ⟨_, by simp only [restoreTree, he, Option.bind_eq_bind, Option.bind_some,
      Option.pure_def]; rfl, ?_, ?_⟩
    · simp only [hs.getD_tree hr he]
      rfl
    · intro ht
      simp only [TreeBody.children, List.forall_mem_cons] at ht ⊢
      exact ⟨ht.1, ht.2.1, ht.2.2.1, hs.getD_in hr he _, hs.getD_in hr he _, hs.getD_in hr he _,
        hs.getD_in hr he _, by simp⟩
  · rw [if_neg hk] at hv
    cases hv

end Settled

end Heap

open Process in
theorem start_setAttributes_ok {typeName : String} {entries : List (Value × Value)}
    {ms ms' : List (String × Value)}
    (h : (setAttributes typeName entries).start ms = (.ok (), ms')) :
    (∀ e ∈ entries, e.1.string?.isSome) ∧
      ms' = Members.update ms (Value.textEntries entries) := by
  induction entries generalizing ms with
  | nil =>
    cases h
    exact ⟨by simp, rfl⟩
  | cons e entries ih =>
    obtain ⟨k, v⟩ := e
    rw [setAttributes] at h
    rw [Value.textEntries_cons, List.forall_mem_cons]
    cases hk : k.string? with
    | none =>
      simp only [hk] at h
      cases h
    | some name =>
      simp only [hk] at h
      obtain ⟨u, s, hset, h⟩ := start_bind_ok h
      rw [start_modify] at hset
      cases hset
      obtain ⟨hall, rfl⟩ := ih h
      exact ⟨⟨rfl, hall⟩, rfl⟩

namespace Heap.Settled

variable {h : Heap} {cells : List Nat} {r : Ref}

open Process in
theorem mergeState_tree (hs : h.Settled cells) {typeName : String} {fuel : Nat}
    {attributes : List (String × Ref)} {ms : List (String × Value)} (hr : r.In cells)
    (hfuel : (h.tree r).nesting < fuel)
    (hv : (PickledModel.mergeState typeName (h.tree r)).start (Members.mapValues h.tree attributes) =
      (.ok (), ms)) :
    ∃ merged, h.mergeState fuel r attributes = some merged ∧
      ms = Members.mapValues h.tree merged ∧
      ((∀ m ∈ attributes, m.2.In cells) → ∀ m ∈ merged, m.2.In cells) := by
  -- the fuel bounds the nesting of the state, which only a pair of states goes down
  induction fuel generalizing r attributes ms with
  | zero => cases hfuel
  | succ fuel ih =>
    obtain ⟨n, hn, hin, htree⟩ := hs.exists_view hr
    cases n with
    | leaf l =>
      rw [htree] at hv
      cases l with
      | none =>
        cases hv
        exact ⟨attributes, by rw [mergeState, hn], rfl, fun ha => ha⟩
      | _ => cases hv
    | dict entries =>
      have he : h.entries? r = some entries := by rw [entries?, hn]
      have hentries := hs.entries?_in hr he
      rw [hs.tree_of_entries? hr he, PickledModel.mergeState] at hv
      obtain ⟨hall, rfl⟩ := start_setAttributes_ok hv
      have htexts : ∀ e ∈ entries, (e.1.read Value.string?).isSome := by
        intro e hmem
        have htext := Value.forall_string?_of_distinctEntries hall (h.tree e.1, h.tree e.2)
          (List.mem_map_of_mem hmem)
        rwa [hs.string?_tree (hentries e hmem).1] at htext
      refine ⟨Members.update attributes (members entries), ?_, ?_, ?_⟩
      · rw [mergeState, hn]
        exact if_pos (List.all_eq_true.mpr htexts)
      · rw [Members.mapValues_update, hs.textEntries_distinct hentries]
      · intro ha
        exact Members.update_forall (p := Ref.In cells) ha (members_in hentries)
    | object typeName body =>
      rw [htree] at hv
      cases hv
    | sequence kind items =>
      rw [htree] at hv
      cases kind with
      | list => cases hv
      | set => cases hv
      | frozenSet => cases hv
      | tuple =>
        rcases items with _ | ⟨state, _ | ⟨slots, _ | ⟨third, rest⟩⟩⟩
        · cases hv
        · cases hv
        · have hnesting : ∀ c ∈ (h.tree r).children, c.nesting < fuel := fun c hc =>
            Nat.lt_of_lt_of_le (Value.nesting_lt_of_mem hc) (Nat.le_of_lt_succ hfuel)
          rw [htree] at hnesting
          change ∀ c ∈ [h.tree state, h.tree slots], c.nesting < fuel at hnesting
          simp only [List.forall_mem_cons] at hnesting
          simp only [Layer.children, List.forall_mem_cons] at hin
          obtain ⟨u, s, hstate, hslots⟩ := start_bind_ok
            (p := PickledModel.mergeState typeName (h.tree state))
            (f := fun _ => PickledModel.mergeState typeName (h.tree slots)) hv
          obtain ⟨first, hfirst, rfl, hfirstin⟩ := ih hin.1 hnesting.1 hstate
          obtain ⟨second, hsecond, rfl, hsecondin⟩ := ih hin.2.1 hnesting.2.1 hslots
          refine ⟨second, ?_, rfl, fun ha => hsecondin (hfirstin ha)⟩
          rw [mergeState, hn]
          simp only [hfirst, hsecond, Option.bind_eq_bind, Option.bind_some]
        · cases hv

open Process in
theorem restoreArray_tree (hs : h.Settled cells) (hr : r.In cells) {typeName : String}
    {a : ArrayBody Ref} {c c' : Cursor} (hin : ∀ c ∈ (Body.array a).children, c.In cells)
    {v : ArrayBody Value}
    (hv : (ArrayBody.restore typeName (h.tree r)).start (a.map h.tree, c) = (.ok (), (v, c'))) :
    ∃ body', h.restore r (.array a) c = some (body', c') ∧ .array v = body'.map h.tree ∧
      ∀ c ∈ body'.children, c.In cells := by
  have hlayout : (a.map h.tree).layout = a.layout := rfl
  rw [ArrayBody.restore, start_bind, start_get] at hv
  simp only [hlayout] at hv
  cases hl : a.layout with
  | wrapped =>
    simp only [hl] at hv
    obtain ⟨a', hmade, rfl, ha'⟩ := hs.restoreWrapped_tree hr hv
    refine ⟨.array a', ?_, rfl, ha'⟩
    simp only [restore, hl, hmade, Option.map_some]
  | inlined =>
    simp only [hl] at hv
    obtain ⟨w, hpart, hset⟩ := start_on_ok hv
    cases hset
    obtain ⟨a', hmade, rfl, ha'⟩ := hs.restoreInlined_tree hr hpart
    refine ⟨.array a', ?_, rfl, ha' hin⟩
    simp only [restore, hl, hmade, Option.map_some]

/-- Giving an object its state. -/
theorem restore_tree (hs : h.Settled cells) (hr : r.In cells)
    (hn : (h.tree r).nesting ≤ maxNesting) {typeName : String} {body : Body Ref} {c c' : Cursor}
    (hin : ∀ c ∈ body.children, c.In cells) {v : Body Value}
    (hv : (Body.restore typeName (h.tree r)).start (body.map h.tree, c) = (.ok (), (v, c'))) :
    ∃ body', h.restore r body c = some (body', c') ∧ v = body'.map h.tree ∧
      ∀ c ∈ body'.children, c.In cells := by
  change (Body.restore typeName (h.tree r)) (body.map h.tree, c) = (.ok (), (v, c')) at hv
  cases body with
  | descriptor d =>
    simp only [Body.restore, Body.map] at hv
    cases hd : (d.map h.tree).restore (h.tree r) with
    | error e =>
      simp only [hd] at hv
      cases hv
    | ok dv =>
      simp only [hd] at hv
      cases hv
      obtain ⟨d', hmade, rfl, hd'⟩ := hs.restoreDescriptor_tree hr hin hd
      exact ⟨.descriptor d', by rw [restore, hmade]; rfl, rfl, hd'⟩
  | array a =>
    simp only [Body.restore, Body.map] at hv
    rcases ha : (ArrayBody.restore typeName (h.tree r)).start (a.map h.tree, c) with ⟨e | u, av, ac⟩
    · simp only [ha] at hv
      cases hv
    · simp only [ha] at hv
      cases hv
      exact hs.restoreArray_tree hr hin ha
  | tree t =>
    simp only [Body.restore, Body.map] at hv
    cases ht : (t.map h.tree).restore typeName (h.tree r) with
    | error e =>
      simp only [ht] at hv
      cases hv
    | ok tv =>
      simp only [ht] at hv
      cases hv
      obtain ⟨t', hmade, rfl, ht'⟩ := hs.restoreTree_tree hr ht
      exact ⟨.tree t', by rw [restore, hmade]; rfl, rfl, ht' hin⟩
  | attributes attributes =>
    simp only [Body.restore, Body.map] at hv
    rcases hm : (PickledModel.mergeState typeName (h.tree r)).start
      (Members.mapValues h.tree attributes) with ⟨e | u, ms⟩
    · have hm' := hm
      rw [Members.mapValues] at hm'
      simp only [hm'] at hv
      cases hv
    · have hm' := hm
      rw [Members.mapValues] at hm'
      simp only [hm'] at hv
      cases hv
      obtain ⟨merged, hmade, rfl, hmerged⟩ :=
        hs.mergeState_tree hr (Nat.lt_succ_of_le hn) hm
      refine ⟨.attributes merged, by rw [restore, hmade]; rfl, rfl, ?_⟩
      rw [Body.children, List.forall_mem_map] at hin ⊢
      exact hmerged hin
  | unresolved =>
    cases hv
    exact ⟨.unresolved, rfl, rfl, by simp [Body.children]⟩

end Heap.Settled

end PickledModel
