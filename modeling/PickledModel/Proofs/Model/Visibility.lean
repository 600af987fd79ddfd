import PickledModel.Proofs.Model.Assembly

/-! What hides an attribute. The schema decides by the document that shows the value, and
null is the document of none and of every float that JSON has no number for. So an attribute
that is optional is hidden without its value being none if that is an infinity or no number. -/

set_option autoImplicit false

namespace PickledModel

/-- The attribute schema hides a value that is null if the attribute is optional; else what
it says of the attribute counts, and a default value is hidden if it says nothing. -/
theorem Metadata.isVisible_eq_false_iff {m : Metadata} {operator name : String}
    {s : AttributeSchema} (hs : m.attribute? operator name = some s) (shown : Json) :
    m.isVisible operator name shown = false ↔
      s.option = some "optional" ∧ shown.isNull = true ∨ s.visible = some false ∨
        s.visible = none ∧ ∃ d, s.default = some d ∧ d.equivalent shown = true := by
  rw [isVisible, hs]
  dsimp only
  by_cases hnull : s.option = some "optional" ∧ shown.isNull = true
  · rw [if_pos hnull]
    exact iff_of_true rfl (.inl hnull)
  · rw [if_neg hnull, or_iff_right hnull]
    cases s.visible with
    | some visible => simp
    | none =>
      cases s.default with
      | some d => simp
      | none => simp

namespace Value

def ShownAsNull (v : Value) : Prop := v = .none ∨ ∃ x, v = .float x ∧ x.isFinite = false

theorem toJson_isNull_iff {v : Value} : v.toJson.isNull = true ↔ v.ShownAsNull := by
  cases v with
  | leaf l =>
    rw [toJson]
    cases l with
    | none => exact iff_of_true rfl (.inl rfl)
    | float x =>
      rw [ShownAsNull, Leaf.toJson, Json.ofFloat]
      cases hx : x.isFinite with
      | true => simp [Json.isNull, hx]
      | false => simp [Json.isNull, hx]
    | _ => simp [ShownAsNull, Leaf.toJson, Json.isNull, Json.ofInt64]
  | sequence kind items =>
    rw [toJson_sequence]
    simp [ShownAsNull, Json.isNull]
  | dict entries =>
    rw [toJson_dict, Json.ofMembers]
    simp [ShownAsNull, Json.isNull]
  | object typeName body =>
    rw [toJson_object, Json.ofMembers]
    simp [ShownAsNull, Json.isNull]

end Value

namespace Node

variable {visible : String → Value → Bool} {budget : Nat} {fields : List (String × Value)}
  {attributes : List Attribute} {initializers : List Initializer}

theorem Assembled.mem_attributes_iff
    (h : Assembled visible budget fields attributes initializers) {a : Attribute} :
    a ∈ attributes ↔ isInternal a.name = false ∧
      (∀ typeName b, a.value ≠ .object typeName (.array b)) ∧ (a.name, a.value) ∈ fields ∧
        a.visible = visible a.name a.value := by
  induction h with
  | done => simp
  | @internal name v _ _ _ hname _ ih =>
    have hne : isInternal a.name = false → (a.name, a.value) ≠ (name, v) := by
      rintro hinternal heq
      rw [(Prod.mk.inj heq).1, hname] at hinternal
      cases hinternal
    rw [ih]
    grind
  | @plain name v _ _ _ hname hv _ ih =>
    obtain ⟨name', v', visible'⟩ := a
    rw [List.mem_cons, ih]
    grind
  | @array name typeName b _ _ _ hname _ ih =>
    rw [ih]
    grind

/-- An optional attribute of which the schema says nothing else is shown, and hidden exactly
if its value is none, unless the value is a float that is not finite. -/
theorem optional_attribute_hidden (typeName : String) (body : Body Value) {m : Metadata}
    (budget : Nat) {name : String} {v : Value} {s : AttributeSchema}
    (hfield : (name, v) ∈ body.fields) (hname : isInternal name = false)
    (harray : ∀ typeName a, v ≠ .object typeName (.array a))
    (hs : m.attribute? (ofObject typeName body m budget).operator name = some s)
    (hoption : s.option = some "optional") (hvisible : s.visible = none)
    (hdefault : s.default = none) :
    (∃ visible, ⟨name, v, visible⟩ ∈ (ofObject typeName body m budget).attributes) ∧
    ∀ visible, ⟨name, v, visible⟩ ∈ (ofObject typeName body m budget).attributes →
      (visible = false ↔ v = .none ∨ ∃ x, v = .float x ∧ x.isFinite = false) ∧
      ((visible = false ↔ v = .none) ↔ ¬∃ x, v = .float x ∧ x.isFinite = false) := by
  have hassembled := assembled_ofObject typeName body m budget
  have hshown : ∀ visible, ⟨name, v, visible⟩ ∈ (ofObject typeName body m budget).attributes ↔
      visible = m.isVisible (ofObject typeName body m budget).operator name v.toJson := by
    intro visible
    rw [hassembled.mem_attributes_iff]
    constructor
    · rintro ⟨-, -, -, h⟩
      exact h
    · intro h
      exact ⟨hname, harray, hfield, h⟩
  refine ⟨⟨_, (hshown _).mpr rfl⟩, ?_⟩
  intro visible hmem
  have hhidden : visible = false ↔ v.ShownAsNull := by
    rw [(hshown visible).mp hmem, Metadata.isVisible_eq_false_iff hs, hoption, hvisible, hdefault,
      Value.toJson_isNull_iff]
    simp
  refine ⟨hhidden, ?_⟩
  rw [hhidden, Value.ShownAsNull]
  constructor
  · rintro h ⟨x, rfl, hx⟩
    cases h.mp (.inr ⟨x, rfl, hx⟩)
  · intro h
    exact or_iff_left h

def optionalOnly (operator name : String) : Metadata :=
  ⟨[(operator, ⟨none, none, none, [⟨name, none, none, some "optional", none, none⟩], [], [], [], []⟩)]⟩

/-- None is hidden, and one half is not. -/
theorem optional_attribute_hidden_none :
    ⟨"p", .none, false⟩ ∈
      (ofObject "a.E" (.attributes [("p", .none)]) (optionalOnly "E" "p") 0).attributes ∧
    ⟨"p", .float ⟨0x3fe0000000000000⟩, true⟩ ∈ (ofObject "a.E"
      (.attributes [("p", .float ⟨0x3fe0000000000000⟩)]) (optionalOnly "E" "p") 0).attributes := by
  have hattribute : (optionalOnly "E" "p").attribute? "E" "p" =
      some ⟨"p", none, none, some "optional", none, none⟩ := by cbv
  constructor
  · obtain ⟨⟨visible, hmem⟩, hhidden⟩ := optional_attribute_hidden "a.E"
      (.attributes [("p", .none)]) 0 (.head _) rfl (by simp) hattribute rfl rfl rfl
    obtain ⟨hiff, -⟩ := hhidden visible hmem
    rwa [hiff.mpr (.inl rfl)] at hmem
  · obtain ⟨⟨visible, hmem⟩, hhidden⟩ := optional_attribute_hidden "a.E"
      (.attributes [("p", .float ⟨0x3fe0000000000000⟩)]) 0 (.head _) rfl (by simp)
      hattribute rfl rfl rfl
    obtain ⟨hiff, -⟩ := hhidden visible hmem
    have hfinite : Binary64.isFinite ⟨0x3fe0000000000000⟩ = true := by decide
    have hvisible : visible = true := by
      rw [← Bool.not_eq_false, hiff]
      simp [hfinite]
    rwa [hvisible] at hmem

/-- A float that is no number is a value, and hidden. -/
theorem not_a_number_hidden :
    (optionalOnly "E" "p").attribute? "E" "p" =
      some ⟨"p", none, none, some "optional", none, none⟩ ∧
    (ofObject "a.E" (.attributes [("p", .float ⟨0x7ff8000000000000⟩)])
      (optionalOnly "E" "p") 0).attributes = [⟨"p", .float ⟨0x7ff8000000000000⟩, false⟩] ∧
    Value.float ⟨0x7ff8000000000000⟩ ≠ .none := by
  refine ⟨by cbv, by cbv, ?_⟩
  rintro ⟨⟩

end Node

end PickledModel
