import Mathlib
import PickledModel.Model.Basic
import PickledModel.Proofs.Object.FieldNames
import PickledModel.Proofs.Stream.Reaching

/-! Nodes show their object in full. Each field that is not internal becomes one attribute
or one initializer, in the order of the fields, and there are no others. No name is shown
twice, as no object that a load gives has two fields of one name, whatever states it took. -/

set_option autoImplicit false

namespace PickledModel

namespace Node

variable {visible : String → Value → Bool} {budget : Nat} {fields : List (String × Value)}
  {attributes : List Attribute} {initializers : List Initializer}

inductive Assembled (visible : String → Value → Bool) (budget : Nat) :
    List (String × Value) → List Attribute → List Initializer → Prop
  | done : Assembled visible budget [] [] []
  | internal {name : String} {v : Value} {fields : List (String × Value)}
      {attributes : List Attribute} {initializers : List Initializer}
      (hname : isInternal name = true)
      (rest : Assembled visible budget fields attributes initializers) :
      Assembled visible budget ((name, v) :: fields) attributes initializers
  | plain {name : String} {v : Value} {fields : List (String × Value)}
      {attributes : List Attribute} {initializers : List Initializer}
      (hname : isInternal name = false) (hv : ∀ typeName a, v ≠ .object typeName (.array a))
      (rest : Assembled visible budget fields attributes initializers) :
      Assembled visible budget ((name, v) :: fields) (⟨name, v, visible name v⟩ :: attributes)
        initializers
  | array {name typeName : String} {a : ArrayBody Value} {fields : List (String × Value)}
      {attributes : List Attribute} {initializers : List Initializer}
      (hname : isInternal name = false)
      (rest : Assembled visible budget fields attributes initializers) :
      Assembled visible budget ((name, .object typeName (.array a)) :: fields) attributes
        (.ofArray name a budget :: initializers)

theorem array?_eq_some_iff {v : Value} {a : ArrayBody Value} :
    array? v = some a ↔ ∃ typeName, v = .object typeName (.array a) := by
  constructor
  · intro h
    unfold array? at h
    split at h
    · obtain rfl := Option.some.inj h
      exact ⟨_, rfl⟩
    · cases h
  · rintro ⟨typeName, rfl⟩
    rfl

theorem array?_eq_none_iff {v : Value} :
    array? v = none ↔ ∀ typeName a, v ≠ .object typeName (.array a) := by
  rw [Option.eq_none_iff_forall_ne_some]
  constructor
  · rintro h typeName a rfl
    exact h a rfl
  · intro h a ha
    obtain ⟨typeName, hv⟩ := array?_eq_some_iff.mp ha
    exact h typeName a hv

theorem assembled_ofObject (typeName : String) (body : Body Value) (m : Metadata) (budget : Nat) :
    Assembled (fun name v => m.isVisible (ofObject typeName body m budget).operator name v.toJson)
      budget body.fields (ofObject typeName body m budget).attributes
      (ofObject typeName body m budget).initializers := by
  change Assembled (fun name v => m.isVisible (Text.afterLast '.' typeName) name v.toJson) budget
    body.fields _ _
  rw [ofObject, Node.fields]
  dsimp only
  induction body.fields with
  | nil => exact .done
  | cons field fields ih =>
    obtain ⟨name, v⟩ := field
    cases hname : isInternal name with
    | true =>
      rw [List.filter_cons_of_neg (by simp [hname])]
      exact .internal hname ih
    | false =>
      rw [List.filter_cons_of_pos (by simp [hname])]
      cases harray : array? v with
      | none =>
        simp only [List.filterMap_cons, harray]
        exact .plain hname (array?_eq_none_iff.mp harray) ih
      | some a =>
        obtain ⟨typeName, rfl⟩ := array?_eq_some_iff.mp harray
        simp only [List.filterMap_cons, harray]
        exact .array hname ih

/-- The names that are shown are those of the fields that are not internal. -/
theorem Assembled.names_perm (h : Assembled visible budget fields attributes initializers) :
    (attributes.map Attribute.name ++ initializers.map Initializer.name).Perm
      ((fields.filter fun field => !isInternal field.1).map Prod.fst) := by
  induction h with
  | done => exact .nil
  | internal hname _ ih =>
    rw [List.filter_cons_of_neg (by simp [hname])]
    exact ih
  | plain hname _ _ ih =>
    rw [List.filter_cons_of_pos (by simp [hname])]
    exact ih.cons _
  | array hname _ ih =>
    rw [List.filter_cons_of_pos (by simp [hname])]
    exact List.perm_middle.trans (ih.cons _)

/-- A node shows fields in full: each that is not internal once, in order and under a name
of its own, with an input for each initializer. -/
structure Shows (n : Node) (visible : String → Value → Bool) (budget : Nat)
    (fields : List (String × Value)) : Prop where
  assembled : Assembled visible budget fields n.attributes n.initializers
  names_perm : (n.attributes.map Attribute.name ++ n.initializers.map Initializer.name).Perm
    ((fields.filter fun field => !isInternal field.1).map Prod.fst)
  names_nodup : (n.attributes.map Attribute.name ++ n.initializers.map Initializer.name).Nodup
  inputs : List.Forall₂ (fun input t => input.name = t.name ∧ input.connections = [t])
    n.inputs n.initializers

theorem inputs_forall₂ (n : Node) :
    List.Forall₂ (fun input t => input.name = t.name ∧ input.connections = [t])
      n.inputs n.initializers := by
  rw [inputs]
  induction n.initializers with
  | nil => exact .nil
  | cons t initializers ih => exact .cons ⟨rfl, rfl⟩ ih

theorem shows_ofObject {body : Body Value} (hbody : body.DistinctNames) (typeName : String)
    (m : Metadata) (budget : Nat) :
    (ofObject typeName body m budget).Shows
      (fun name v => m.isVisible (ofObject typeName body m budget).operator name v.toJson) budget
      body.fields := by
  have h := assembled_ofObject typeName body m budget
  have hsub : ((body.fields.filter fun field => !isInternal field.1).map Prod.fst).Sublist
      (body.fields.map Prod.fst) := List.filter_sublist.map Prod.fst
  have hshown := h.names_perm.nodup_iff.mpr (hbody.fields_nodup.sublist hsub)
  exact ⟨h, h.names_perm, hshown, inputs_forall₂ _⟩

end Node

namespace Machine

/-- Whatever the loads before it gave, and with any registry, the model of an object that
a load gives has one node, which shows the fields of the object in full. -/
theorem fields_shown_once {data : Bytes} {m : Machine} (hm : Reachable data m) {r : Registry}
    {typeName : String} {body : Body Value} (h : (m.load r).1 = .ok (.object typeName body))
    (metadata : Metadata) (budget : Nat) :
    ∃ n, (Model.ofObject typeName body metadata budget).graphs = [⟨[n], [], []⟩] ∧
      n.Shows (fun name v => metadata.isVisible n.operator name v.toJson) budget body.fields := by
  have hnames : body.DistinctNames := (hm.load_distinctNames h).here
  exact ⟨_, rfl, Node.shows_ofObject hnames typeName metadata budget⟩

namespace TwiceBuilt

/-- An estimator of an internal field, an array, and a parameter that is set again by a
second state. -/
def stream : Bytes :=
  [0x28, 0x69, 0x61, 0x0a, 0x45, 0x0a, 0x7d, 0x28, 0x55, 0x02, 0x5f, 0x68, 0x4b, 0x01,
    0x55, 0x01, 0x43, 0x4b, 0x02, 0x55, 0x01, 0x77, 0x28, 0x69, 0x61, 0x0a, 0x41, 0x0a, 0x75,
    0x62, 0x7d, 0x55, 0x01, 0x43, 0x4b, 0x03, 0x73, 0x62, 0x2e]

def registry : Registry :=
  (Registry.empty.register "a.E" .attributes).register "a.A" .inlinedArray

def blank : Value := .object "a.E" (.attributes [])

def array : Value := .object "a.A" (.array (.make .inlined []))

def state : List (Value × Value) := [(.str "_h", .int 1), (.str "C", .int 2), (.str "w", array)]

def built : Body Value := .attributes [("_h", .int 1), ("C", .int 2), ("w", array)]

def body : Body Value := .attributes [("_h", .int 1), ("C", .int 3), ("w", array)]

theorem reached_state :
    (ofBytes stream).after? registry 12 =
      some (midway stream 29 [.owned ⟨.dict state, 2⟩, .owned ⟨blank, 1⟩] [] []) := by
  have hmark : (ofBytes stream).after? registry 1 = some (midway stream 1 [] [[]] []) := by cbv
  have hname : (midway stream 1 [] [[]] []).cursor.fetch? =
      some (.inst, .callNamed "a.E", ⟨6, stream.drop 6⟩) := by cbv
  have hcall : Call.run registry "a.E" [] = .ok ⟨blank, none⟩ := rfl
  have hkeys : (midway stream 6 [.owned ⟨blank, 1⟩] [] []).after? registry 8 =
      some (midway stream 23 [] [[.owned ⟨.str "w", 0⟩, .owned ⟨.int 2, 0⟩, .owned ⟨.str "C", 0⟩,
        .owned ⟨.int 1, 0⟩, .owned ⟨.str "_h", 0⟩], [.owned ⟨.dict [], 1⟩, .owned ⟨blank, 1⟩]]
        []) := by cbv
  have hname' : (midway stream 23 [] [[.owned ⟨.str "w", 0⟩, .owned ⟨.int 2, 0⟩,
      .owned ⟨.str "C", 0⟩, .owned ⟨.int 1, 0⟩, .owned ⟨.str "_h", 0⟩],
      [.owned ⟨.dict [], 1⟩, .owned ⟨blank, 1⟩]] []).cursor.fetch? =
      some (.inst, .callNamed "a.A", ⟨28, stream.drop 28⟩) := by cbv
  have hcall' : Call.run registry "a.A" [] = .ok ⟨array, none⟩ := rfl
  rw [after?_add (k := 1) hmark 11, after?_callNamed [] hname (by simp) rfl rfl hcall (by decide)]
  change (midway stream 6 [.owned ⟨blank, 1⟩] [] []).after? registry 10 = _
  rw [after?_add (k := 8) hkeys 2,
    after?_callNamed [] hname' (by simp) rfl rfl hcall' (by decide)]
  cbv

theorem normalize_state : (Value.dict state).normalize = .dict state := by
  apply congrArg Value.dict
  apply Value.distinctEntries_of_pairwise
  have hne : ∀ a b : String, a ≠ b → (Value.str a).equal (.str b) = false := by
    intro a b hab
    rw [← Bool.not_eq_true, Value.equal_str_eq_true_iff]
    simpa using hab
  simp [state, hne]

theorem reached_again :
    (ofBytes stream).after? registry 17 =
      some (midway stream 37 [.owned ⟨.dict [(.str "C", .int 3)], 1⟩,
        .owned ⟨.object "a.E" built, 3⟩] [] []) := by
  have hbuild : (midway stream 29 [.owned ⟨.dict state, 2⟩, .owned ⟨blank, 1⟩] []
      []).cursor.fetch? = some (.build, .build, ⟨30, stream.drop 30⟩) := by cbv
  rw [after?_add (k := 12) reached_state 5,
    after?_build hbuild rfl normalize_state (by decide) rfl]
  cbv

theorem reached_body :
    (ofBytes stream).after? registry 18 =
      some (midway stream 38 [.owned ⟨.object "a.E" body, 3⟩] [] []) := by
  have hbuild : (midway stream 37 [.owned ⟨.dict [(.str "C", .int 3)], 1⟩,
      .owned ⟨.object "a.E" built, 3⟩] [] []).cursor.fetch? =
      some (.build, .build, ⟨38, stream.drop 38⟩) := by cbv
  have hstate : (Value.dict [(.str "C", .int 3)]).normalize = .dict [(.str "C", .int 3)] :=
    congrArg Value.dict (Value.distinctEntries_of_pairwise (List.pairwise_singleton ..))
  rw [after?_add (k := 17) reached_again 1, after?_build hbuild rfl hstate (by decide) rfl]
  rfl

theorem load_body : ((ofBytes stream).load registry).1 = .ok (.object "a.E" body) := by
  change (run registry 39 (ofBytes stream)).1 = _
  rw [run_of_after? reached_body 21]
  cbv

end TwiceBuilt

theorem fields_shown_once_twice_built :
    ((ofBytes TwiceBuilt.stream).load TwiceBuilt.registry).1 = .ok (.object "a.E" TwiceBuilt.body) ∧
      ∃ n, (Model.ofObject "a.E" TwiceBuilt.body .empty 0).graphs = [⟨[n], [], []⟩] ∧
        n.Shows (fun name v => Metadata.empty.isVisible n.operator name v.toJson) 0
          TwiceBuilt.body.fields :=
  ⟨TwiceBuilt.load_body, fields_shown_once .ofBytes TwiceBuilt.load_body .empty 0⟩

end Machine

end PickledModel
