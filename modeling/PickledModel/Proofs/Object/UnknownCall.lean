import Mathlib
import PickledModel.Proofs.Value.Erasure

/-! Calls where one type is known, as one with attributes, next to the same calls
where it is not. Arguments that are rewritten give a rewritten result; the object of
the type itself is made without attributes, and so without content in both. -/

set_option autoImplicit false

namespace PickledModel

theorem Members.get?_set {α : Type} (name other : String) (v : α) (ms : List (String × α)) :
    get? other (set name v ms) = if name = other then some v else get? other ms := by
  induction ms with
  | nil =>
    by_cases h : name = other <;> simp [set, get?, h]
  | cons m ms ih =>
    obtain ⟨k, w⟩ := m
    simp only [get?] at ih ⊢
    by_cases hk : k = name
    · subst hk
      by_cases h : k = other <;> simp [set, h]
    · by_cases h : k = other
      · subst h
        simp [set, hk, Ne.symm hk]
      · simp [set, hk, h, ih]

namespace Registry

variable {r : Registry} {name : String} {b : Builder}

theorem resolve?_register_self : (r.register name b).resolve? name = some b := by
  rw [resolve?, register, Members.get?_set, if_pos rfl]

theorem resolve?_register {other : String} (h : other ≠ name) :
    (r.register name b).resolve? other = r.resolve? other := by
  rw [resolve?, register, Members.get?_set, if_neg (Ne.symm h)]
  rfl

end Registry

namespace Rewriting

variable {f : Value → Value} {erased : String → Prop} {good : Value → Prop}

theorem getElem (hf : Rewriting f erased good) (args : List Value) (i : Nat) :
    (args.map f)[i]?.getD .none = f (args[i]?.getD .none) := by
  rw [List.getElem?_map]
  cases args[i]? with
  | none => exact (hf.leaf _).symm
  | some v => rfl

theorem eq_leaf (hf : Rewriting f erased good) {v : Value} {l : Leaf} (h : f v = .leaf l) :
    v = .leaf l := by
  have hnests := hf.nests v
  rw [h] at hnests
  cases v with
  | leaf l' => rwa [hf.leaf] at h
  | _ => cases hnests

end Rewriting

theorem bind_getElem_map {α β : Type} {f : α → α} {g : α → Option β} (hg : ∀ a, g (f a) = g a)
    (as : List α) (i : Nat) : (as.map f)[i]?.bind g = as[i]?.bind g := by
  rw [List.getElem?_map]
  cases as[i]? with
  | none => rfl
  | some a => exact hg a

section
variable {f : Value → Value} {erased : String → Prop} {good : Value → Prop}
  (hf : Rewriting f erased good)
include hf

theorem Descriptor.code?_map {v : Value} {s : String} (h : code? v = .ok s) :
    code? (f v) = .ok s := by
  cases v with
  | leaf l => rwa [hf.leaf]
  | _ => cases h

theorem Descriptor.make_map {args : List Value} {d : Descriptor Value} (h : make args = .ok d) :
    make (args.map f) = .ok (d.map f) := by
  obtain ⟨s, hs, h⟩ := Except.bind_ok h
  obtain ⟨t, ht, h⟩ := Except.bind_ok h
  obtain rfl := Except.ok.inj h
  rw [make, hf.getElem, hf.getElem, hf.getElem, code?_map hf hs]
  change resolve s >>= _ = _
  rw [ht]
  rfl

theorem ArrayBody.make_map (layout : ArrayLayout) (args : List Value) :
    make layout (args.map f) = (make layout args).map f := by
  rw [make, make, hf.getElem, bind_getElem_map hf.shape?]
  rfl

theorem TreeBody.make_map (args : List Value) : make (args.map f) = (make args).map f := by
  rw [make, make, hf.getElem, hf.getElem, hf.getElem, TreeBody.map, hf.leaf]

theorem Builder.make_map {b : Builder} {args : List Value} {body : Body Value}
    (h : b.make args = .ok body) : b.make (args.map f) = .ok (body.map f) := by
  cases b with
  | descriptor =>
    obtain ⟨d, hd, rfl⟩ := Except.map_ok h
    rw [make, Descriptor.make_map hf hd]
    rfl
  | wrappedArray | inlinedArray =>
    obtain rfl := Except.ok.inj h
    rw [make, ArrayBody.make_map hf]
    rfl
  | tree =>
    obtain rfl := Except.ok.inj h
    rw [make, TreeBody.make_map hf]
    rfl
  | attributes =>
    obtain rfl := Except.ok.inj h
    rfl

/-- A scalar is decoded alike from rewritten arguments. -/
theorem ArrayBody.scalar_map {name : String} {args : List Value} {v : Value}
    (hargs : ∀ a ∈ args, good a) (h : scalar name args = .ok v) :
    scalar name (args.map f) = .ok v := by
  obtain ⟨d, hd, h⟩ := Except.bind_ok h
  have hd' := hf.expectDescriptor (fun a ha => hargs a (List.mem_of_getElem? ha)) hd
  rw [scalar, List.getElem?_map, hd', bind_getElem_map hf.bytes?]
  exact h

namespace Call

theorem target_map (name : String) (args : List Value) :
    target name (args.map f) = ((target name args).1, (target name args).2.map f) := by
  have hother : ∀ as : List Value, (¬ ∃ cls base rest, as = .global cls :: .global base :: rest) →
      target name as = (name, as) := by
    intro as has
    unfold target
    split
    · exact absurd ⟨_, _, _, rfl⟩ has
    · rfl
  by_cases h : ∃ cls base rest, args = .global cls :: .global base :: rest
  · obtain ⟨cls, base, rest, rfl⟩ := h
    simp only [List.map_cons, hf.leaf, target]
    split <;> simp [hf.leaf]
  · rw [hother args h, hother]
    rintro ⟨cls, base, rest, hargs⟩
    apply h
    obtain ⟨a, as, rfl, ha, has⟩ := List.map_eq_cons_iff.mp hargs
    obtain ⟨b, bs, rfl, hb, -⟩ := List.map_eq_cons_iff.mp has
    exact ⟨cls, base, bs, by rw [hf.eq_leaf ha, hf.eq_leaf hb]⟩

theorem firstItems_map {name : String} {args items : List Value}
    (h : firstItems name args = .ok items) :
    firstItems name (args.map f) = .ok (items.map f) := by
  cases args with
  | nil =>
    obtain rfl := Except.ok.inj h
    rfl
  | cons v args =>
    rw [List.map_cons, firstItems, hf.items?]
    rw [firstItems] at h
    cases hi : v.items? with
    | none =>
      rw [hi] at h
      cases h
    | some vs =>
      rw [hi] at h
      obtain rfl := Except.ok.inj h
      rfl

theorem entry_map {name : String} {v : Value} {e : Value × Value} (h : entry name v = .ok e) :
    entry name (f v) = .ok (f e.1, f e.2) := by
  unfold entry at h ⊢
  rw [hf.items?]
  split at h
  · next hi =>
    obtain rfl := Except.ok.inj h
    rw [hi]
    rfl
  · cases h

theorem mapM_entry_map {name : String} {items : List Value} {entries : List (Value × Value)}
    (h : items.mapM (entry name) = .ok entries) :
    (items.map f).mapM (entry name) = .ok (entries.map fun e => (f e.1, f e.2)) := by
  induction items generalizing entries with
  | nil =>
    obtain rfl := Except.ok.inj h
    rfl
  | cons v items ih =>
    rw [List.mapM_cons] at h
    obtain ⟨e, he, h⟩ := Except.bind_ok h
    obtain ⟨es, hes, h⟩ := Except.bind_ok h
    obtain rfl := Except.ok.inj h
    rw [List.map_cons, List.mapM_cons, entry_map hf he, ih hes]
    rfl

end Call

end

namespace Call

variable {r : Registry} {n name : String} {args : List Value}

theorem run_built {o : Outcome} (h : run (r.register n .attributes) name args = .ok o) :
    o.value.Built n := by
  have hself : (r.register n .attributes).resolve? n = some .attributes :=
    Registry.resolve?_register_self
  cases run_gives h with
  | ordinary hv => exact (Value.built_stable n).ordinary _ hv
  | known hknown hbody =>
    intro hname
    rw [hname, hself] at hknown
    exact hbody.trans hknown.symm
  | unknown hunknown =>
    intro hname
    rw [hname, hself] at hunknown
    cases hunknown

theorem Builtin.apply_erase {b : Builtin} {v : Value} (h : b.apply name args = .ok v) :
    ∃ w, b.apply name (args.map (Value.erase n)) = .ok w ∧ v.Erases n w := by
  have hf := Value.erase_rewriting n
  have plain : ∀ l : Leaf, (Value.leaf l).Erases n (.leaf l) :=
    fun l => ⟨rfl, fun _ => (Value.erase_leaf l).symm⟩
  revert h
  fun_cases Builtin.apply name b args with
  | case1 s rest bs hs =>
    rintro ⟨⟩
    refine ⟨_, ?_, plain _⟩
    rw [List.map_cons, Value.erase_leaf, apply, hs]
  | case3 bs rest =>
    rintro ⟨⟩
    refine ⟨_, ?_, plain _⟩
    rw [List.map_cons, Value.erase_leaf, apply]
  | case5 =>
    rintro ⟨⟩
    exact ⟨_, rfl, plain _⟩
  | case6 v rest bs hbs =>
    rintro ⟨⟩
    refine ⟨_, ?_, plain _⟩
    rw [List.map_cons, apply, hf.bytes?, hbs]
  | case8 =>
    rintro ⟨⟩
    exact ⟨_, rfl, rfl, fun _ => (Value.erase_dict []).symm⟩
  | case9 u items hi =>
    intro h
    obtain ⟨entries, hentries, rfl⟩ := Except.map_ok h
    refine ⟨.dict (entries.map fun e => (e.1.erase n, e.2.erase n)), ?_, rfl, fun _ => ?_⟩
    · rw [List.map_cons, List.map_nil, apply, hf.items?, hi, Option.map_some]
      dsimp only
      rw [mapM_entry_map hf hentries]
      rfl
    · exact (Value.erase_dict entries).symm
  | case12 args =>
    intro h
    obtain ⟨items, hitems, rfl⟩ := Except.map_ok h
    refine ⟨_, ?_, Value.erases_distinctItems (.inl rfl) items⟩
    rw [apply, firstItems_map hf hitems]
    rfl
  | case13 args =>
    intro h
    obtain ⟨items, hitems, rfl⟩ := Except.map_ok h
    refine ⟨_, ?_, Value.erases_distinctItems (.inr rfl) items⟩
    rw [apply, firstItems_map hf hitems]
    rfl
  | _ => rintro ⟨⟩

/-- What a registration makes of the objects of its own type is all that it changes. -/
theorem build_erase {o : Outcome} (hn : r.resolve? n = none)
    (h : build (r.register n .attributes) name args = .ok o) :
    ∃ o', build r name (args.map (Value.erase n)) = .ok o' ∧ o.value.Erases n o'.value := by
  unfold build at h ⊢
  by_cases hname : name = n
  · subst hname
    rw [Registry.resolve?_register_self] at h
    obtain rfl := Except.ok.inj h
    rw [hn]
    exact ⟨_, rfl, rfl, fun _ => (Value.erase_object_self _).symm⟩
  · rw [Registry.resolve?_register hname] at h
    cases hresolve : r.resolve? name with
    | some b =>
      rw [hresolve] at h
      obtain ⟨body, hbody, h⟩ := Except.bind_ok h
      obtain rfl := Except.ok.inj h
      refine ⟨⟨.object name (body.map (Value.erase n)), none⟩, ?_, rfl, fun _ => ?_⟩
      · dsimp only
        rw [Builder.make_map (Value.erase_rewriting n) hbody]
        rfl
      · exact (Value.erase_object hname body).symm
    | none =>
      rw [hresolve] at h
      obtain rfl := Except.ok.inj h
      exact ⟨_, rfl, rfl, fun _ => (Value.erase_object hname .unresolved).symm⟩

/-- Next to a call that knows the type, one that does not gives the erased result. -/
theorem run_erase {o : Outcome} (hn : r.resolve? n = none)
    (hargs : ∀ a ∈ args, a.Throughout (Value.Built n))
    (h : run (r.register n .attributes) name args = .ok o) :
    ∃ o', run r name (args.map (Value.erase n)) = .ok o' ∧ o.value.Erases n o'.value := by
  have hf := Value.erase_rewriting n
  have hargs' : ∀ a ∈ (target name args).2, a.Throughout (Value.Built n) :=
    target_contents name hargs
  unfold run at h ⊢
  rw [target_map hf]
  generalize target name args = t at h hargs' ⊢
  obtain ⟨name, args⟩ := t
  dsimp only at h hargs' ⊢
  by_cases hscalar : name ∈ scalars
  · rw [if_pos hscalar] at h ⊢
    obtain ⟨v, hv, h⟩ := Except.bind_ok h
    obtain rfl := Except.ok.inj h
    rw [ArrayBody.scalar_map hf hargs' hv]
    obtain ⟨i, rfl⟩ := scalar_leaf hv
    exact ⟨_, rfl, rfl, fun _ => (Value.erase_leaf _).symm⟩
  rw [if_neg hscalar] at h ⊢
  cases hbuiltin : builtin? name with
  | some b =>
    rw [hbuiltin] at h
    obtain ⟨v, hv, h⟩ := Except.bind_ok h
    obtain rfl := Except.ok.inj h
    obtain ⟨w, hw, hvw⟩ := Builtin.apply_erase (n := n) hv
    refine ⟨⟨w, none⟩, ?_, hvw⟩
    dsimp only
    rw [hw]
    rfl
  | none =>
    rw [hbuiltin] at h
    exact build_erase hn h

end Call

end PickledModel
