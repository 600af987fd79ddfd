import Mathlib
import PickledModel.Proofs.Stream.Reaching

/-! The objects of a load against its registry. Every object has a name, and its
body is of the kind that the registry knows for that name; if the registry knows
none, the body is empty and the name is among the diagnostics. However an object
came about, by any of the call instructions, through a reconstruction or a copy,
and however often it was given a state, the link of name, body and diagnostics holds. -/

set_option autoImplicit false

namespace PickledModel

/-- Objects are named and of the kind of their name, the unresolved ones are
among the reports, and globals are named. -/
def Value.Resolved (r : Registry) (reports : List String) : Value → Prop
  | .object name body =>
    name ≠ "" ∧ body.builder? = r.resolve? name ∧ (r.resolve? name = .none → name ∈ reports)
  | .global name => name ≠ ""
  | _ => True

variable {r : Registry} {reports : List String}

theorem Value.resolved_stable (r : Registry) (reports : List String) :
    Stable (Resolved r reports) where
  ordinary v hv := by
    cases v with
    | leaf l =>
      cases l with
      | global name => exact hv
      | _ => trivial
    | object name body => cases hv
    | _ => trivial
  restore name body state c h :=
    ⟨h.1, (Body.restore_builder? name state body c).trans h.2.1, h.2.2⟩

theorem Call.target_ne_empty {name : String} {args : List Value}
    (hname : name ≠ "" ∨ (Value.global name).Resolved r reports)
    (hargs : ∀ v ∈ args, v.Resolved r reports) : (target name args).1 ≠ "" := by
  have hown : name ≠ "" := hname.elim id id
  unfold target
  split
  · next cls base _ =>
    split
    · exact hargs (.global cls) (by simp)
    · exact hown
  · exact hown

theorem Call.run_resolved {name : String} {args : List Value} {o : Outcome}
    (hname : name ≠ "" ∨ (Value.global name).Resolved r reports)
    (hargs : ∀ v ∈ args, v.Resolved r reports) (hrun : run r name args = .ok o)
    (ho : o.unresolved.toList ⊆ reports) : o.value.Resolved r reports := by
  have hne := target_ne_empty hname hargs
  cases run_gives hrun with
  | ordinary hv => exact (Value.resolved_stable r reports).ordinary _ hv
  | known hknown hbody =>
    refine ⟨hne, hbody.trans hknown.symm, fun hnone => ?_⟩
    rw [hknown] at hnone
    cases hnone
  | unknown hunknown => exact ⟨hne, hunknown.symm, fun _ => ho (List.mem_singleton.mpr rfl)⟩

namespace Machine

theorem resolved_admits (r : Registry) (reports : List String) :
    Admits (Held.Throughout (Value.Resolved r reports)) r reports :=
  (Value.resolved_stable r reports).admits fun _ _ _ hname hargs hrun ho =>
    Call.run_resolved hname hargs hrun ho

theorem load_resolved {data : Bytes} {m : Machine} {v : Value}
    (h : (ofBytes data).load r = (.ok v, m)) : v.Throughout (Value.Resolved r m.reports) := by
  have hq := Value.resolved_stable r m.reports
  have hload : run r (ofBytes data).cursor.size (ofBytes data) = (.ok v, m) := h
  have hadmits : Admits (Held.Throughout (Value.Resolved r m.reports)) r
      (run r (ofBytes data).cursor.size (ofBytes data)).2.reports := by
    rw [hload]
    exact resolved_admits r m.reports
  obtain ⟨g, hg, rfl⟩ := (run_holds hq.kept (ofBytes_holds _ data) hadmits).2 v (by rw [hload])
  exact hq.normalize hg

end Machine

/-- An object with a name and with the body that a registry has for it; without
one the body is empty and the diagnostics have the name. -/
def Registry.Accounts (r : Registry) (diagnostics : List LoadError) : Value → Prop
  | .object name body =>
    name ≠ "" ∧ match r.resolve? name with
      | some b => body.builder? = some b
      | none => body = .unresolved ∧ .unresolved name ∈ diagnostics
  | _ => True

theorem Value.Resolved.accounts {v : Value} (h : v.Resolved r reports) :
    r.Accounts (reports.map .unresolved) v := by
  cases v with
  | object name body =>
    obtain ⟨hne, hbody, hreported⟩ := h
    refine ⟨hne, ?_⟩
    cases hname : r.resolve? name with
    | some b => exact hbody.trans hname
    | none =>
      rw [hname] at hbody
      refine ⟨?_, List.mem_map_of_mem (hreported hname)⟩
      cases body with
      | unresolved => rfl
      | _ => cases hbody
  | _ => trivial

namespace Machine

/-- The registry accounts for every object that a load gives, at any depth; and the
diagnostics of a load, whether it gives a value or not, are the names of the calls
that no rule resolves, in the order of the calls. -/
theorem objects_accounted (data : Bytes) (r : Registry) :
    (∀ v m, (ofBytes data).load r = (.ok v, m) → v.Throughout (r.Accounts m.diagnostics)) ∧
      ((ofBytes data).load r).2.diagnostics =
        (unknowns r ((ofBytes data).called r)).map .unresolved := by
  constructor
  · intro v m h
    exact (load_resolved h).mono fun _ hu => hu.accounts
  · exact load_diagnostics r (ofBytes data)

namespace KnownAndUnknown

/-- A pair of an object of a known type, given a state, and one of an unknown type. -/
def stream : Bytes :=
  [0x28, 0x69, 0x61, 0x0a, 0x42, 0x0a, 0x7d, 0x62, 0x28, 0x69, 0x63, 0x0a, 0x44, 0x0a, 0x86, 0x2e]

def registry : Registry := Registry.empty.register "a.B" .attributes

def known : Value := .object "a.B" (.attributes [])

def unknown : Value := .object "c.D" .unresolved

theorem load_pair : (ofBytes stream).load registry =
    (.ok (.tuple [known, unknown]), midway stream 16 [] [] ["c.D"]) := by
  have hmark : (next registry).start (ofBytes stream) = (.ok none, midway stream 1 [] [[]] []) := by cbv
  have hfetch : (midway stream 1 [] [[]] []).cursor.fetch? =
      some (.inst, .callNamed "a.B", ⟨6, stream.drop 6⟩) := by cbv
  have hcall : Call.run registry "a.B" [] = .ok ⟨known, none⟩ := rfl
  have hknown : (ofBytes stream).after? registry 5 =
      some (midway stream 9 [] [[.owned ⟨known, 2⟩]] []) := by
    rw [after?, hmark]
    dsimp only
    rw [after?_callNamed [] hfetch (by simp) rfl rfl hcall (by decide)]
    cbv
  have hfetch' : (midway stream 9 [] [[.owned ⟨known, 2⟩]] []).cursor.fetch? =
      some (.inst, .callNamed "c.D", ⟨14, stream.drop 14⟩) := by cbv
  have hcall' : Call.run registry "c.D" [] = .ok ⟨unknown, some "c.D"⟩ := rfl
  have hunknown : (ofBytes stream).after? registry 6 =
      some (midway stream 14 [.owned ⟨unknown, 1⟩, .owned ⟨known, 2⟩] [] ["c.D"]) := by
    rw [after?_add hknown 1, after?_callNamed [] hfetch' (by simp) rfl rfl hcall' (by decide)]
    rfl
  change run registry 16 (ofBytes stream) = _
  rw [run_of_after? hunknown 10]
  cbv

end KnownAndUnknown

theorem objects_accounted_pair :
    (ofBytes KnownAndUnknown.stream).load KnownAndUnknown.registry =
        (.ok (.tuple [KnownAndUnknown.known, KnownAndUnknown.unknown]),
          midway KnownAndUnknown.stream 16 [] [] ["c.D"]) ∧
      (Value.tuple [KnownAndUnknown.known, KnownAndUnknown.unknown]).Throughout
        (KnownAndUnknown.registry.Accounts [.unresolved "c.D"]) :=
  ⟨KnownAndUnknown.load_pair,
    (objects_accounted KnownAndUnknown.stream KnownAndUnknown.registry).1 _ _
      KnownAndUnknown.load_pair⟩

end Machine

end PickledModel
