import Mathlib
import PickledModel.Proofs.Object.UnknownCall
import PickledModel.Proofs.Stream.CoupledLoads
import PickledModel.Proofs.Stream.Reaching

/-! A type that the registry does not know, next to the same type known as one with
attributes. The objects of the type are empty then, and everything else is as it was,
as long as no two keys of a dict or a set that differ by the content of such objects
alone fall together. -/

set_option autoImplicit false

namespace PickledModel

theorem Value.erase_of_childless {n : String} {v : Value} (h : v.children = []) (hv : v.Ordinary) :
    v.erase n = v := by
  cases v with
  | leaf l => exact erase_leaf l
  | sequence kind items =>
    obtain rfl : items = [] := h
    exact erase_sequence kind []
  | dict entries =>
    cases entries with
    | nil => exact erase_dict []
    | cons e entries => cases h
  | object name body => cases hv

theorem eq_map_erase {n : String} {vs ws : List Value}
    (h : List.Forall₂ (fun v w => w = v.erase n ∧ v.Throughout (Value.Built n)) vs ws) :
    ws = vs.map (Value.erase n) ∧ ∀ v ∈ vs, v.Throughout (Value.Built n) := by
  refine ⟨eq_map_of_forall₂ (fun _ _ hvw => hvw.1) h, ?_⟩
  induction h with
  | nil => simp
  | cons hvw _ ih => exact List.forall_mem_cons.mpr ⟨hvw.2, ih⟩

/-- An object of the type takes its state, the empty one ignores it; the cursor stays. -/
theorem restore_unresolved (n : String) (state state' : Value)
    (entries : List (String × Value)) :
    Process.Follows (fun s s' => s.1 = .attributes entries ∧ s'.1 = .unresolved ∧ s.2 = s'.2)
      (fun s s' => (Value.object n s.1).Erases n (.object n s'.1) ∧ s.2 = s'.2) (fun _ => False)
      (Body.restore n state) (Body.restore n state') fun _ _ => True := by
  rintro ⟨_, c⟩ ⟨_, _⟩ ⟨rfl, rfl, rfl⟩ u s h
  have hcursor : c = s.2 := congrArg (fun o => o.2.2) h
  exact ⟨trivial, ⟨rfl, fun _ => (Value.erase_object_self s.1).symm⟩, hcursor.symm⟩

/-- Next to a machine under a registry that knows a type, one under a registry that
does not: it holds the same with the objects of the type erased. -/
def Coupling.erasing {r : Registry} {n : String} (hn : r.resolve? n = none) : Coupling where
  toTrack := .self
  left := r.register n .attributes
  right := r
  budget a b := a ≤ b
  reports _ _ := True
  sound v := v.KeysApart n ∧ v.Throughout (Value.Built n)
  ready v w := w = v.erase n ∧ v.KeysApart n ∧ v.Throughout (Value.Built n)
  held v w := v.Erases n w
  taken v w := w = v.erase n ∧ v.Throughout (Value.Built n)
  quiet _ h := h.elim
  held_of_ready := by
    rintro v _ ⟨rfl, -⟩
    exact v.erases_self
  ready_of_sound v w h hs := ⟨h.2 hs.1, hs⟩
  nests v w h := h.1
  normalize := by
    rintro v _ ⟨rfl, hapart, hbuilt⟩
    exact ⟨Value.normalize_erase hapart, (Value.built_stable n).normalize hbuilt⟩
  bare v h hv := ⟨rfl, fun _ => (Value.erase_of_childless h hv).symm⟩
  leaf := by
    rintro l _ ⟨rfl, -⟩
    exact Value.erase_leaf l
  items := by
    rintro v _ vs ⟨rfl, hbuilt⟩ hvs
    refine ⟨vs.map (Value.erase n), by rw [(Value.erase_rewriting n).items?, hvs]; rfl, ?_⟩
    rw [List.forall₂_map_right_iff, List.forall₂_same]
    exact fun c hc => ⟨rfl, (Value.built_stable n).hereditary.items hbuilt hvs c hc⟩
  gather kind vs ws h := by
    obtain ⟨rfl, -⟩ := eq_map_erase h
    cases kind with
    | frozenSet => exact Value.erases_distinctItems (.inr rfl) vs
    | _ => exact ⟨rfl, fun _ => (Value.erase_sequence _ vs).symm⟩
  gatherDict es fs h := by
    obtain rfl : fs = es.map (Value.eraseEntry n) :=
      eq_map_of_forall₂ (fun _ _ he => Prod.ext he.1.1 he.2.1) h
    exact ⟨rfl, fun _ => (Value.erase_dict es).symm⟩
  extend := by
    rintro v _ v' a b ⟨rfl, -⟩ hab hextends
    obtain rfl : b = a.map (Value.erase n) := hab.eq_map fun _ _ h => h.1
    exact ⟨v'.erase n, hextends.rewrite (Value.erase_rewriting n), v'.erases_self⟩
  call name args args' o h hrun := by
    obtain ⟨rfl, hargs⟩ := eq_map_erase h
    obtain ⟨o', hrun', ho⟩ := Call.run_erase hn hargs hrun
    exact ⟨o', hrun', ho, fun _ _ _ => trivial⟩
  restore := by
    rintro typeName body _ state _ ⟨rfl, -, hbuilt⟩ ⟨rfl, hstate⟩
    by_cases hname : typeName = n
    · subst hname
      obtain ⟨entries, rfl⟩ := Body.builder?_eq_attributes (hbuilt.here rfl)
      refine ⟨.unresolved, Value.erase_object_self _, ?_⟩
      exact restore_unresolved typeName state _ entries
    · refine ⟨body.map (Value.erase n), Value.erase_object hname body, ?_⟩
      apply ((Track.restore (T := .self) (Value.erase_rewriting n) typeName hstate).before _).weaken
        (fun _ _ h => h)
      · rintro s s' ⟨hs, hc⟩
        rw [hs, ← Value.erase_object hname]
        exact ⟨Value.erases_self _, hc⟩
      · rintro s s' ⟨rfl, hs, hc⟩
        exact ⟨hs, hc⟩
  copy := by
    rintro v _ a b cost ⟨rfl, -⟩ hbudget hcost
    obtain ⟨rfl, hle⟩ := Value.footprint?_eq_some_iff.mp hcost
    have hless := v.cost_erase_le n
    rw [Value.footprint?_eq, if_pos (by omega)]
    dsimp only
    omega

namespace Machine
open Process

theorem built_admits (r : Registry) (n : String) (reports : List String) :
    Admits (Held.Throughout (Value.Built n)) (r.register n .attributes) reports :=
  (Value.built_stable n).admits fun _ _ _ _ _ hrun _ => Call.run_built hrun

abbrev KeysStayApart (n : String) (m : Machine) : Prop := m.Holds fun h => h.value.KeysApart n

theorem load_erases {data : Bytes} {r : Registry} {n : String} {v : Value} {m : Machine}
    (hn : r.resolve? n = none)
    (h : (ofBytes data).load (r.register n .attributes) = (.ok v, m))
    (hapart : ∀ j mj, (ofBytes data).after? (r.register n .attributes) j = some mj →
      mj.KeysStayApart n) :
    ∃ m', (ofBytes data).load r = (.ok (v.erase n), m') ∧
      m'.cursor.position = m.cursor.position := by
  have hsound : ∀ j mj, (ofBytes data).after? (r.register n .attributes) j = some mj →
      mj.Holds fun h => h.value.KeysApart n ∧ h.value.Throughout (Value.Built n) := by
    intro j mj hj
    exact (hapart j mj hj).and
      (after?_holds (Value.built_stable n).kept (built_admits r n) (ofBytes_holds _ data) hj)
  have hends : (Coupling.erasing hn).Ends v m ((ofBytes data).load r) :=
    Coupling.run_answers (Coupling.ofBytes_coupled rfl (Nat.le_refl _) trivial) hsound
      (.inl (Nat.le_refl _)) h
  rcases hload : (ofBytes data).load r with ⟨e | w, m'⟩ <;> rw [hload] at hends
  · exact hends.1.elim
  · obtain ⟨⟨rfl, -⟩, hcoupled⟩ := hends
    have hcursor : m.cursor = m'.cursor := hcoupled.cursor
    exact ⟨m', rfl, by rw [hcursor]⟩

/-- Let a stream load under a registry that knows a type as one with attributes. If on
the way no two keys fall together that differ by the content of such objects alone, it
loads to the same position under the registry that does not know the type, and gives
the same value but for these objects, which are empty. And it gives that value only if
none of the keys in it are equal. -/
theorem unknown_type_stays_local {data : Bytes} {r : Registry} {n : String} {v : Value}
    {m : Machine} (hn : r.resolve? n = none)
    (h : (ofBytes data).load (r.register n .attributes) = (.ok v, m)) :
    ((∀ j mj, (ofBytes data).after? (r.register n .attributes) j = some mj → mj.KeysStayApart n) →
      ∃ m', (ofBytes data).load r = (.ok (v.erase n), m') ∧
        m'.cursor.position = m.cursor.position) ∧
    (((ofBytes data).load r).1 = .ok (v.erase n) → (v.erase n).Distinct) := by
  constructor
  · exact load_erases hn h
  · intro hload
    obtain ⟨g, hg, hv⟩ := Reachable.ofBytes.load_holds distinctInside_closed hload
    rw [hv]
    exact Value.distinct_normalize hg

namespace KeptApart

/-- A dict of which one key is an object, with nothing as its other key and its values. -/
def stream : Bytes := [0x28, 0x28, 0x69, 0x61, 0x0a, 0x42, 0x0a, 0x4e, 0x4e, 0x4e, 0x64, 0x2e]

def known : Registry := Registry.empty.register "a.B" .attributes

def made : Value := .object "a.B" (.attributes [])

def pushed (k : Nat) : List Held := List.replicate k ⟨.none, 0⟩ ++ [⟨made, 1⟩]

def keyed (key : Value) : List (Value × Value) := [(key, .none), (.none, .none)]

theorem reached_marks :
    (ofBytes stream).after? known 2 = some (midway stream 2 [] [[], []] []) := by cbv

theorem reached_made (j : Nat) : (ofBytes stream).after? known (j + 3) =
    (midway stream 7 [.owned ⟨made, 1⟩] [[]] []).after? known j := by
  have hfetch : (midway stream 2 [] [[], []] []).cursor.fetch? =
      some (.inst, .callNamed "a.B", ⟨7, stream.drop 7⟩) := by cbv
  have hcall : Call.run known "a.B" [] = .ok ⟨made, none⟩ := rfl
  rw [Nat.add_comm j 3, Nat.add_assoc 2 1 j, after?_add reached_marks, Nat.add_comm 1 j,
    after?_callNamed [] hfetch (by simp) rfl rfl hcall (by decide)]
  rfl

theorem reached_nones {k : Nat} (hk : k < 4) : (ofBytes stream).after? known (k + 3) =
    some (midway stream (7 + k) ((pushed k).map .owned) [[]] []) := by
  rw [reached_made]
  rcases k with _ | _ | _ | _ | k
  · cbv
  · cbv
  · cbv
  · cbv
  · omega

theorem reached_dict (j : Nat) : (ofBytes stream).after? known (j + 7) =
    (midway stream 11 [.owned ⟨.dict (keyed made), 2⟩] [] []).after? known j := by
  have hdict : (midway stream 7 [.owned ⟨made, 1⟩] [[]] []).after? known 4 =
      some (midway stream 11 [.owned ⟨.dict (keyed made), 2⟩] [] []) := by cbv
  rw [reached_made (j + 4), Nat.add_comm j 4, after?_add hdict]

theorem apart_keyed : Value.Apart "a.B" [made, .none] := by
  apply List.pairwise_pair.mpr
  rw [made, Value.erase_object_self, Value.erase_leaf, Value.equal_eq]
  rfl

theorem normalize_keyed : (Value.dict (keyed made)).normalize = .dict (keyed made) := by
  apply congrArg Value.dict
  apply Value.distinctEntries_of_pairwise
  apply List.pairwise_pair.mpr
  dsimp only
  rw [Value.equal_eq]
  rfl

theorem stop_dict :
    (next known).start (midway stream 11 [.owned ⟨.dict (keyed made), 2⟩] [] []) =
      (.ok (some (.dict (keyed made))), midway stream 12 [] [] []) := by
  have hstop : (next known).start (midway stream 11 [.owned ⟨.dict (keyed made), 2⟩] [] []) =
      (.ok (some (Value.dict (keyed made)).normalize), midway stream 12 [] [] []) := rfl
  rw [hstop, normalize_keyed]

theorem load_dict : (ofBytes stream).load known =
    (.ok (.dict (keyed made)), midway stream 12 [] [] []) := by
  change run known 12 (ofBytes stream) = _
  rw [run_of_after? (reached_dict 0) 5, run, stop_dict]

theorem midway_apart {offset : Nat} (hs : List Held) {suspended : List (List Slot)}
    (hkeys : ∀ h ∈ hs, h.value.KeysApart "a.B") (hsuspended : ∀ g ∈ suspended, g = []) :
    (midway stream offset (hs.map .owned) suspended []).KeysStayApart "a.B" where
  stack s hs := by
    obtain ⟨h, hmem, rfl⟩ := List.mem_map.mp hs
    exact hkeys h hmem
  suspended g hg s hs := by
    rw [hsuspended g hg] at hs
    cases hs
  memo := (ofBytes_holds _ stream).memo

theorem keys_apart (j : Nat) (m : Machine) (h : (ofBytes stream).after? known j = some m) :
    m.KeysStayApart "a.B" := by
  have hpushed : ∀ k, ∀ h ∈ pushed k, h.value.KeysApart "a.B" := by
    intro k h hmem
    rcases List.mem_append.mp hmem with hmem | hmem
    · rw [List.eq_of_mem_replicate hmem]
      exact .nil
    · rw [List.mem_singleton.mp hmem]
      exact .nil
  rcases j with _ | _ | _ | j
  · cases h
    exact ofBytes_holds _ stream
  · have hmark : (ofBytes stream).after? known 1 = some (midway stream 1 [] [[]] []) := by cbv
    rw [hmark] at h
    cases h
    exact midway_apart [] (by simp) (by simp)
  · rw [reached_marks] at h
    cases h
    exact midway_apart [] (by simp) (by simp)
  -- the object comes first, then three times nothing, then the dict, then the end
  by_cases hj : j < 4
  · rw [reached_nones hj] at h
    cases h
    exact midway_apart _ (hpushed j) (by simp)
  · obtain ⟨k, rfl⟩ := Nat.exists_eq_add_of_le (Nat.not_lt.mp hj)
    rw [Nat.add_comm 4 k, Nat.add_assoc, reached_dict] at h
    cases k with
    | zero =>
      cases h
      apply midway_apart [⟨.dict (keyed made), 2⟩] _ (by simp)
      rw [List.forall_mem_singleton, Value.KeysApart, normalize_keyed]
      exact apart_keyed
    | succ k =>
      rw [after?, stop_dict] at h
      cases h

end KeptApart

theorem unknown_type_stays_local_dict :
    Registry.empty.resolve? "a.B" = none ∧
      (ofBytes KeptApart.stream).load KeptApart.known =
        (.ok (.dict (KeptApart.keyed KeptApart.made)), midway KeptApart.stream 12 [] [] []) ∧
      ∃ m', (ofBytes KeptApart.stream).load .empty =
        (.ok (.dict (KeptApart.keyed (.object "a.B" .unresolved))), m') ∧
          m'.cursor.position = 12 := by
  have herase : (Value.dict (KeptApart.keyed KeptApart.made)).erase "a.B" =
      .dict (KeptApart.keyed (.object "a.B" .unresolved)) := by
    rw [Value.erase_dict]
    simp [KeptApart.keyed, KeptApart.made, Value.erase_object_self]
  refine ⟨rfl, KeptApart.load_dict, ?_⟩
  rw [← herase]
  exact (unknown_type_stays_local rfl KeptApart.load_dict).1 KeptApart.keys_apart

namespace FallingTogether

/-- A dict with two objects of one type as keys, of which the first is given a state. -/
def stream : Bytes :=
  [0x28, 0x28, 0x69, 0x61, 0x0a, 0x42, 0x0a, 0x7d, 0x55, 0x01, 0x78, 0x4e, 0x73, 0x62, 0x4b, 0x01,
    0x28, 0x69, 0x61, 0x0a, 0x42, 0x0a, 0x4b, 0x02, 0x64, 0x2e]

def state : List (Value × Value) := [(.str "x", .none)]

theorem normalize_state : (Value.dict state).normalize = .dict state :=
  congrArg Value.dict (Value.distinctEntries_of_pairwise (List.pairwise_singleton _ _))

variable {r : Registry} {made built : Body Value} {u : Option String}

theorem reached_state (hcall : Call.run r "a.B" [] = .ok ⟨.object "a.B" made, u⟩) :
    (ofBytes stream).after? r 7 =
      some (midway stream 13 [.owned ⟨.dict state, 1⟩, .owned ⟨.object "a.B" made, 1⟩] [[]]
        u.toList) := by
  have hmarks : (ofBytes stream).after? r 2 = some (midway stream 2 [] [[], []] []) := by cbv
  have hfetch : (midway stream 2 [] [[], []] []).cursor.fetch? =
      some (.inst, .callNamed "a.B", ⟨7, stream.drop 7⟩) := by cbv
  rw [after?_add (k := 2) hmarks 5,
    after?_callNamed [] hfetch (by simp) rfl rfl hcall (Nat.le_of_ble_eq_true rfl)]
  cbv

theorem reached_built (hcall : Call.run r "a.B" [] = .ok ⟨.object "a.B" made, u⟩)
    (hrestore : ∀ c, (Body.restore "a.B" (.dict state)).start (made, c) = (.ok (), built, c)) :
    (ofBytes stream).after? r 8 =
      some (midway stream 14 [.owned ⟨.object "a.B" built, 2⟩] [[]] u.toList) := by
  have hbuild : (midway stream 13 [.owned ⟨.dict state, 1⟩, .owned ⟨.object "a.B" made, 1⟩] [[]]
      u.toList).cursor.fetch? = some (.build, .build, ⟨14, stream.drop 14⟩) := by cbv
  rw [after?_add (k := 7) (reached_state hcall) 1,
    after?_build hbuild rfl normalize_state (by decide) (hrestore _)]
  rfl

def keyed (made built : Body Value) : List (Value × Value) :=
  [(.object "a.B" built, .int 1), (.object "a.B" made, .int 2)]

theorem reached_dict (hcall : Call.run r "a.B" [] = .ok ⟨.object "a.B" made, u⟩)
    (hrestore : ∀ c, (Body.restore "a.B" (.dict state)).start (made, c) = (.ok (), built, c)) :
    (ofBytes stream).after? r 13 =
      some (midway stream 25 [.owned ⟨.dict (keyed made built), 3⟩] [] (u.toList ++ u.toList)) := by
  have hvalue : (ofBytes stream).after? r 10 =
      some (midway stream 17 [] [[.owned ⟨.int 1, 0⟩, .owned ⟨.object "a.B" built, 2⟩], []]
        u.toList) := by
    rw [after?_add (k := 8) (reached_built hcall hrestore) 2]
    cbv
  have hfetch : (midway stream 17 [] [[.owned ⟨.int 1, 0⟩, .owned ⟨.object "a.B" built, 2⟩], []]
      u.toList).cursor.fetch? = some (.inst, .callNamed "a.B", ⟨22, stream.drop 22⟩) := by cbv
  rw [after?_add (k := 10) hvalue 3,
    after?_callNamed [] hfetch (by simp) rfl rfl hcall (Nat.le_of_ble_eq_true rfl)]
  cbv

theorem load_dict (hcall : Call.run r "a.B" [] = .ok ⟨.object "a.B" made, u⟩)
    (hrestore : ∀ c, (Body.restore "a.B" (.dict state)).start (made, c) = (.ok (), built, c)) :
    (ofBytes stream).load r =
      (.ok (.dict (Value.distinctEntries (keyed made built))),
        midway stream 26 [] [] (u.toList ++ u.toList)) := by
  change run r 26 (ofBytes stream) = _
  rw [run_of_after? (reached_dict hcall hrestore) 13]
  rfl

theorem distinct_known :
    Value.distinctEntries (keyed (.attributes []) (.attributes [("x", .none)])) =
      keyed (.attributes []) (.attributes [("x", .none)]) := by
  apply Value.distinctEntries_of_pairwise
  apply List.pairwise_pair.mpr
  dsimp only
  rw [Value.equal_eq]
  simp [Value.sameHead, Body.map]

theorem distinct_unknown :
    Value.distinctEntries (keyed .unresolved .unresolved) =
      [(.object "a.B" .unresolved, .int 2)] := by
  have hequal : (Value.object "a.B" .unresolved).equal (.object "a.B" .unresolved) = true := by
    rw [Value.equal_eq]
    simp [Value.sameHead, Value.children, Body.children]
  rw [Value.distinctEntries_eq_insertEntries]
  simp [keyed, Value.insertEntries, Value.insertEntry, hequal]

end FallingTogether

/-- Two keys that differ by their content alone are one where their type is unknown,
and the entry of the first is lost. -/
theorem unknown_keys_fall_together :
    let v := Value.dict
      (FallingTogether.keyed (.attributes []) (.attributes [("x", .none)]))
    let w := Value.dict [(.object "a.B" .unresolved, .int 2)]
    ((ofBytes FallingTogether.stream).load KeptApart.known).1 = .ok v ∧
      ((ofBytes FallingTogether.stream).load .empty).1 = .ok w ∧ w ≠ v.erase "a.B" := by
  refine ⟨?_, ?_, ?_⟩
  · have hrestore : ∀ c, (Body.restore "a.B" (.dict FallingTogether.state)).start
        (.attributes [], c) = (.ok (), .attributes [("x", .none)], c) := fun _ => rfl
    rw [FallingTogether.load_dict (u := none) rfl hrestore, FallingTogether.distinct_known]
  · have hrestore : ∀ c, (Body.restore "a.B" (.dict FallingTogether.state)).start
        (.unresolved, c) = (.ok (), .unresolved, c) := fun _ => rfl
    rw [FallingTogether.load_dict (u := some "a.B") rfl hrestore, FallingTogether.distinct_unknown]
  · rw [Value.erase_dict]
    intro h
    have hlength := congrArg (fun v => v.children.length) h
    simp [FallingTogether.keyed, Value.children] at hlength

end Machine

end PickledModel
