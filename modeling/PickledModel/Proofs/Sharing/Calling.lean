import PickledModel.Proofs.Sharing.Unfolding

/-! Calling a global with references and calling it with the values they stand
for have the same result. -/

set_option autoImplicit false

namespace PickledModel

theorem Call.apply_encode_ok {name : String} {w v : Value} {args : List Value}
    (hv : Call.Builtin.encode.apply name (w :: args) = .ok v) :
    ∃ bs, w.bytes? = some bs ∧ v = .bytes bs := by
  cases w with
  | leaf l =>
    cases l with
    | str s =>
      rw [Call.Builtin.apply] at hv
      cases hl : Text.latin1Bytes? s with
      | none => simp [hl] at hv
      | some bs =>
        simp only [hl, Except.ok.injEq] at hv
        exact ⟨bs, hl, hv.symm⟩
    | bytes bs =>
      cases hv
      exact ⟨bs, rfl, rfl⟩
    | _ => cases hv
  | _ => cases hv

namespace Heap.Settled

variable {h : Heap} {cells : List Nat} {args : List Ref}

theorem tree_leaf (l : Leaf) : h.tree (.leaf l) = .leaf l :=
  tree_eq (.leaf l)

theorem eq_leaf_of_tree (hs : h.Settled cells) {r : Ref} (hr : r.In cells) {l : Leaf}
    (hl : h.tree r = .leaf l) : r = .leaf l := by
  cases r with
  | leaf k =>
    rw [tree_leaf] at hl
    rw [Value.leaf.inj hl]
  | cell a =>
    have hn := hs.nests_tree hr
    rw [hl] at hn
    cases hn

theorem getElem_in (hargs : ∀ a ∈ args, a.In cells) (i : Nat) :
    (args[i]?.getD (.leaf .none)).In cells := by
  cases hi : args[i]? with
  | none => trivial
  | some a => exact hargs a (List.mem_of_getElem? hi)

theorem getElem_tree (i : Nat) :
    (args.map h.tree)[i]?.getD .none = h.tree (args[i]?.getD (.leaf .none)) := by
  rw [List.getElem?_map]
  cases args[i]? with
  | none => exact (tree_leaf .none).symm
  | some a => rfl

theorem bind_getElem_tree {β : Type} {f : Value → Option β} {g : Ref → Option β}
    (hargs : ∀ a ∈ args, a.In cells) (hf : ∀ r : Ref, r.In cells → f (h.tree r) = g r) (i : Nat) :
    (args.map h.tree)[i]?.bind f = args[i]?.bind g := by
  rw [List.getElem?_map]
  cases hi : args[i]? with
  | none => rfl
  | some a => exact hf a (hargs a (List.mem_of_getElem? hi))

theorem target_tree (hs : h.Settled cells) (hargs : ∀ a ∈ args, a.In cells) (name : String) :
    Call.target name (args.map h.tree) =
        ((Heap.target name args).1, (Heap.target name args).2.map h.tree) ∧
      ∀ a ∈ (Heap.target name args).2, a.In cells := by
  unfold Heap.target
  split
  · next cls base rest =>
    rw [List.map_cons, List.map_cons, tree_leaf, tree_leaf, Call.target]
    by_cases hn : name ∈ Call.reconstructors ∧ base ∈ Call.baseObjects
    · rw [if_pos hn, if_pos hn]
      exact ⟨rfl, by simp⟩
    · rw [if_neg hn, if_neg hn]
      refine ⟨?_, hargs⟩
      rw [List.map_cons, List.map_cons, tree_leaf, tree_leaf]
  · next hother =>
    refine ⟨?_, hargs⟩
    unfold Call.target
    split
    · next cls base rest heq =>
      obtain ⟨a, as, rfl, ha, has⟩ := List.map_eq_cons_iff.mp heq
      obtain ⟨b, bs, rfl, hb, -⟩ := List.map_eq_cons_iff.mp has
      have ha' := hs.eq_leaf_of_tree (hargs a (by simp)) ha
      have hb' := hs.eq_leaf_of_tree (hargs b (by simp)) hb
      subst ha' hb'
      exact absurd rfl (hother cls base bs)
    · rfl

theorem scalar_tree (hs : h.Settled cells) (hargs : ∀ a ∈ args, a.In cells) {name : String}
    {v : Value} (hv : ArrayBody.scalar name (args.map h.tree) = .ok v) :
    ∃ l, h.scalar args = some l ∧ v = .leaf l := by
  obtain ⟨d, hd, hv⟩ := Except.bind_ok hv
  have hdescriptor : ∃ d', args[0]?.bind h.descriptor? = some d' ∧ d = d'.map h.tree := by
    rw [List.getElem?_map] at hd
    cases ha : args[0]? with
    | none =>
      rw [ha] at hd
      cases hd
    | some a =>
      rw [ha, ArrayBody.expectDescriptor, Option.map_some, Option.bind_some,
        hs.descriptor?_tree (hargs a (List.mem_of_getElem? ha))] at hd
      rw [Option.bind_some]
      cases hda : h.descriptor? a with
      | none => simp [hda] at hd
      | some d' =>
        simp only [hda, Option.map_some, Except.ok.injEq] at hd
        exact ⟨d', rfl, hd.symm⟩
  obtain ⟨d', hd', rfl⟩ := hdescriptor
  rw [bind_getElem_tree hargs fun r hr => hs.read_tree hr fun _ => Value.bytes?_of_nests] at hv
  cases hraw : args[1]?.bind (Ref.read Value.bytes?) with
  | none =>
    simp only [hraw] at hv
    cases hv
  | some raw =>
    have htype : (d'.map h.tree).elementType = d'.elementType := rfl
    simp only [hraw, htype] at hv
    split at hv
    · next hint =>
      by_cases hlength : 8 ≤ raw.length
      · rw [if_pos hlength] at hv
        cases hv
        exact ⟨_, by simp [scalar, hd', hraw, hint, hlength], rfl⟩
      · rw [if_neg hlength] at hv
        cases hv
    · cases hv

theorem firstItems_tree (hs : h.Settled cells) (hargs : ∀ a ∈ args, a.In cells) {name : String}
    {items : List Value} (hv : Call.firstItems name (args.map h.tree) = .ok items) :
    ∃ rs, h.firstItems args = some rs ∧ items = rs.map h.tree ∧ ∀ r ∈ rs, r.In cells := by
  cases args with
  | nil =>
    cases hv
    exact ⟨[], rfl, rfl, by simp⟩
  | cons a args =>
    have ha := hargs a (by simp)
    rw [List.map_cons, Call.firstItems, hs.items?_tree ha] at hv
    cases hi : h.items? a with
    | none => simp [hi] at hv
    | some rs =>
      simp only [hi, Option.map_some, Except.ok.injEq] at hv
      exact ⟨rs, hi, hv.symm, hs.items?_in ha hi⟩

theorem entry_tree (hs : h.Settled cells) {r : Ref} (hr : r.In cells) {name : String}
    {e : Value × Value} (hv : Call.entry name (h.tree r) = .ok e) :
    ∃ e', h.entry r = some e' ∧ e = (h.tree e'.1, h.tree e'.2) ∧ e'.1.In cells ∧ e'.2.In cells := by
  rw [Call.entry, hs.items?_tree hr] at hv
  cases hi : h.items? r with
  | none => simp [hi] at hv
  | some items =>
    have hin := hs.items?_in hr hi
    simp only [hi, Option.map_some] at hv
    split at hv
    · next heq =>
      cases hv
      have hmap := Option.some.inj heq
      simp only [List.map_eq_cons_iff, List.map_eq_nil_iff] at hmap
      obtain ⟨key, _, rfl, rfl, value, _, rfl, rfl, rfl⟩ := hmap
      simp only [List.forall_mem_cons] at hin
      exact ⟨(key, value), by rw [entry, hi], rfl, hin.1, hin.2.1⟩
    · cases hv

theorem entries_tree (hs : h.Settled cells) {rs : List Ref} (hrs : ∀ r ∈ rs, r.In cells)
    {name : String} {entries : List (Value × Value)}
    (hv : (rs.map h.tree).mapM (Call.entry name) = .ok entries) :
    ∃ es, rs.mapM h.entry = some es ∧ entries = es.map (fun e => (h.tree e.1, h.tree e.2)) ∧
      ∀ e ∈ es, e.1.In cells ∧ e.2.In cells := by
  induction rs generalizing entries with
  | nil =>
    cases hv
    exact ⟨[], rfl, rfl, by simp⟩
  | cons r rs ih =>
    obtain ⟨hr, hrs⟩ := List.forall_mem_cons.mp hrs
    rw [List.map_cons, List.mapM_cons] at hv
    obtain ⟨e, he, hv⟩ := Except.bind_ok hv
    obtain ⟨rest, hrest, hv⟩ := Except.bind_ok hv
    cases hv
    obtain ⟨e', he', rfl, hin⟩ := hs.entry_tree hr he
    obtain ⟨es, hes, rfl, hesin⟩ := ih hrs hrest
    refine ⟨e' :: es, ?_, rfl, List.forall_mem_cons.mpr ⟨hin, hesin⟩⟩
    rw [List.mapM_cons, he', hes]
    rfl

def Rebuilds (h : Heap) (cells : List Nat) (n : Layer Ref) (v : Value) : Prop :=
  v.normalize = (n.map h.tree).value.normalize ∧ ∀ c ∈ n.children, c.In cells

theorem children_dict_in {entries : List (Ref × Ref)}
    (hin : ∀ e ∈ entries, e.1.In cells ∧ e.2.In cells) :
    ∀ c ∈ (Layer.dict entries).children, c.In cells :=
  Value.forall_mem_entries hin

theorem rebuilds_set {rs : List Ref} (hin : ∀ r ∈ rs, r.In cells) :
    Rebuilds h cells (.sequence .set rs) (.set (Value.distinctItems (rs.map h.tree))) :=
  ⟨congrArg Value.set (Value.distinctItems_distinctItems _), hin⟩

theorem rebuilds_frozenSet {rs : List Ref} (hin : ∀ r ∈ rs, r.In cells) :
    Rebuilds h cells (.sequence .frozenSet rs) (.frozenSet (Value.distinctItems (rs.map h.tree))) :=
  ⟨congrArg Value.frozenSet (Value.distinctItems_distinctItems _), hin⟩

theorem rebuilds_leaf (l : Leaf) : Rebuilds h cells (.leaf l) (.leaf l) :=
  ⟨rfl, by simp [Layer.children]⟩

theorem bytes_tree (hs : h.Settled cells) {a : Ref} (ha : a.In cells) {bs : Bytes}
    (hv : (h.tree a).bytes? = some bs) : a.read Value.bytes? = some bs := by
  rw [← hs.read_tree ha fun _ => Value.bytes?_of_nests]
  exact hv

theorem applyBuiltin_tree (hs : h.Settled cells) (hargs : ∀ a ∈ args, a.In cells) {name : String}
    {b : Call.Builtin} {v : Value} (hv : b.apply name (args.map h.tree) = .ok v) :
    ∃ n, h.applyBuiltin b args = some n ∧ Rebuilds h cells n v := by
  cases b with
  | encode =>
    cases args with
    | nil => cases hv
    | cons a as =>
      obtain ⟨bs, hbs, rfl⟩ := Call.apply_encode_ok hv
      refine ⟨.leaf (.bytes bs), ?_, rebuilds_leaf _⟩
      rw [applyBuiltin, hs.bytes_tree (hargs a (by simp)) hbs]
      rfl
  | bytes =>
    cases args with
    | nil =>
      cases hv
      exact ⟨_, rfl, rebuilds_leaf _⟩
    | cons a as =>
      rw [List.map_cons, Call.Builtin.apply] at hv
      cases hbs : (h.tree a).bytes? with
      | none => simp [hbs] at hv
      | some bs =>
        simp only [hbs, Except.ok.injEq] at hv
        subst hv
        refine ⟨.leaf (.bytes bs), ?_, rebuilds_leaf _⟩
        rw [applyBuiltin, hs.bytes_tree (hargs a (by simp)) hbs]
        rfl
  | orderedDict =>
    match args, hargs, hv with
    | [], hargs, hv =>
      cases hv
      exact ⟨.dict [], rfl, rfl, by simp [Layer.children]⟩
    | [a], hargs, hv =>
      have ha := hargs a (by simp)
      rw [List.map_cons, List.map_nil, Call.Builtin.apply, hs.items?_tree ha] at hv
      cases hi : h.items? a with
      | none => simp [hi] at hv
      | some rs =>
        simp only [hi, Option.map_some] at hv
        obtain ⟨entries, hentries, rfl⟩ := Except.map_ok hv
        obtain ⟨es, hes, rfl, hin⟩ := hs.entries_tree (hs.items?_in ha hi) hentries
        refine ⟨.dict es, ?_, rfl, children_dict_in hin⟩
        simp only [applyBuiltin, hi, hes, Option.bind_eq_bind, Option.bind_some, Option.pure_def]
    | _ :: _ :: _, hargs, hv => cases hv
  | set =>
    obtain ⟨items, hitems, rfl⟩ := Except.map_ok hv
    obtain ⟨rs, hrs, rfl, hin⟩ := hs.firstItems_tree hargs hitems
    exact ⟨.sequence .set rs, by rw [applyBuiltin, hrs]; rfl, rebuilds_set hin⟩
  | frozenSet =>
    obtain ⟨items, hitems, rfl⟩ := Except.map_ok hv
    obtain ⟨rs, hrs, rfl, hin⟩ := hs.firstItems_tree hargs hitems
    exact ⟨.sequence .frozenSet rs, by rw [applyBuiltin, hrs]; rfl, rebuilds_frozenSet hin⟩

theorem makeDescriptor_tree (hs : h.Settled cells) (hargs : ∀ a ∈ args, a.In cells)
    {d : Descriptor Value} (hv : Descriptor.make (args.map h.tree) = .ok d) :
    ∃ d', makeDescriptor args = some d' ∧ d = d'.map h.tree ∧ ∀ c ∈ d'.children, c.In cells := by
  obtain ⟨code, hcode, hv⟩ := Except.bind_ok hv
  obtain ⟨t, ht, hv⟩ := Except.bind_ok hv
  cases hv
  rw [getElem_tree] at hcode
  have hread : (args[0]?.getD (Ref.leaf .none)).read (fun v => (Descriptor.code? v).toOption) =
      some code := by
    rw [← hs.read_tree (f := fun v => (Descriptor.code? v).toOption) (getElem_in hargs 0), hcode]
    · rfl
    · intro v hn
      cases v <;> first | rfl | cases hn
  refine ⟨⟨t, args[1]?.getD (.leaf .none), args[2]?.getD (.leaf .none), none⟩, ?_, ?_, ?_⟩
  · have hresolve : (Descriptor.resolve code).toOption = some t := by
      rw [ht]
      rfl
    simp only [makeDescriptor, hread, hresolve, Option.bind_eq_bind, Option.bind_some,
      Option.pure_def]
  · rw [getElem_tree, getElem_tree]
    rfl
  · simp only [Descriptor.children, List.forall_mem_cons]
    exact ⟨getElem_in hargs 1, getElem_in hargs 2, by simp⟩

theorem makeArray_tree (hs : h.Settled cells) (hargs : ∀ a ∈ args, a.In cells)
    (layout : ArrayLayout) :
    ArrayBody.make layout (args.map h.tree) = (h.makeArray layout args).map h.tree := by
  unfold ArrayBody.make
  rw [getElem_tree, bind_getElem_tree hargs fun r hr => hs.shape?_tree hr]
  rfl

theorem makeTree_tree : TreeBody.make (args.map h.tree) = (makeTree args).map h.tree := by
  unfold TreeBody.make
  rw [getElem_tree, getElem_tree, getElem_tree]
  simp only [TreeBody.map, makeTree, tree_leaf]

theorem make_tree (hs : h.Settled cells) (hargs : ∀ a ∈ args, a.In cells) {b : Builder}
    {v : Body Value} (hv : b.make (args.map h.tree) = .ok v) :
    ∃ body, h.make b args = some body ∧ v = body.map h.tree ∧
      ∀ c ∈ body.children, c.In cells := by
  have hone : ∀ i, (args[i]?.getD (Ref.leaf .none)).In cells := getElem_in hargs
  cases b with
  | descriptor =>
    obtain ⟨d, hd, rfl⟩ := Except.map_ok hv
    obtain ⟨d', hd', rfl, hin⟩ := hs.makeDescriptor_tree hargs hd
    exact ⟨.descriptor d', by rw [make, hd']; rfl, rfl, hin⟩
  | wrappedArray =>
    cases hv
    rw [hs.makeArray_tree hargs]
    exact ⟨_, rfl, rfl, List.forall_mem_singleton.mpr (hone 0)⟩
  | inlinedArray =>
    cases hv
    rw [hs.makeArray_tree hargs]
    exact ⟨_, rfl, rfl, List.forall_mem_singleton.mpr (hone 0)⟩
  | tree =>
    cases hv
    rw [makeTree_tree]
    refine ⟨_, rfl, rfl, ?_⟩
    simp only [Body.children, TreeBody.children, makeTree, List.forall_mem_cons]
    exact ⟨hone 0, hone 1, hone 2, trivial, trivial, trivial, trivial, by simp⟩
  | attributes =>
    cases hv
    exact ⟨_, rfl, rfl, by simp [Body.children]⟩

/-- Calling a global. -/
theorem call_tree (hs : h.Settled cells) (hargs : ∀ a ∈ args, a.In cells) {r : Registry}
    {name : String} {o : Call.Outcome} (hv : Call.run r name (args.map h.tree) = .ok o) :
    ∃ n, h.call r name args = some (n, o.unresolved) ∧ Rebuilds h cells n o.value := by
  obtain ⟨htarget, htargetin⟩ := hs.target_tree hargs name
  rw [Call.run, htarget] at hv
  rw [call]
  generalize Heap.target name args = t at hv htargetin
  obtain ⟨name, args⟩ := t
  simp only at hv htargetin ⊢
  by_cases hscalar : name ∈ Call.scalars
  · rw [if_pos hscalar] at hv ⊢
    obtain ⟨v, hmade, hret⟩ := Except.bind_ok hv
    cases hret
    obtain ⟨l, hl, rfl⟩ := hs.scalar_tree htargetin hmade
    exact ⟨.leaf l, by rw [hl]; rfl, rebuilds_leaf l⟩
  · rw [if_neg hscalar] at hv ⊢
    cases hb : Call.builtin? name with
    | some b =>
      simp only [hb] at hv ⊢
      obtain ⟨v, hmade, hret⟩ := Except.bind_ok hv
      cases hret
      obtain ⟨n, hn, hrebuilds⟩ := hs.applyBuiltin_tree htargetin hmade
      exact ⟨n, by rw [hn]; rfl, hrebuilds⟩
    | none =>
      simp only [hb] at hv ⊢
      rw [Call.build] at hv
      cases hr : r.resolve? name with
      | none =>
        simp only [hr] at hv ⊢
        cases hv
        exact ⟨_, rfl, rfl, by simp [Layer.children, Body.children]⟩
      | some b =>
        simp only [hr] at hv ⊢
        obtain ⟨v, hmade, hret⟩ := Except.bind_ok hv
        cases hret
        obtain ⟨body, hbody, rfl, hin⟩ := hs.make_tree htargetin hmade
        exact ⟨.object name body, by rw [hbody]; rfl, rfl, hin⟩

end Heap.Settled

end PickledModel
