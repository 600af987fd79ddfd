import PickledModel.Json.Printer
import PickledModel.Value.Access
import PickledModel.Value.Size

/-!
# Values as JSON

The document that shows a value: bytes become arrays of octets, a key that is
no text becomes the text of its document, and an object becomes its type name
followed by its fields.

Memory is unbounded here. The text of a key that is a dict with such a key is
escaped once more at each level, so the name of a member about doubles with each:
dicts that are each the key of the next, some 64 deep, have a document that no
allocation holds.
-/

set_option autoImplicit false

namespace PickledModel
open scoped Natural

def Leaf.toJson : Leaf → Json
  | .none => .null
  | .bool b => .bool b
  | .int i => .ofInt64 i
  | .bigInt i => .string (toString i)
  | .float x => .ofFloat x
  | .str s => .string s
  | .bytes bs => .array (bs.map fun b => .ofUInt64 b.toUInt64)
  | .global name => .string name

namespace Value

theorem weight_leaf (l : Leaf) : (Value.leaf l).weight = 1 := by
  simp [weight_eq, dimensions, children]

theorem weight_descriptor (typeName : String) (d : Descriptor Value) :
    (Value.object typeName (.descriptor d)).weight = 1 + (d.children.map weight).sum := by
  simp [weight_eq, dimensions, Body.dimensions, children, Body.children]

theorem weight_array (typeName : String) (a : ArrayBody Value) :
    (Value.object typeName (.array a)).weight
      = 1 + a.shape.length + (a.children.map weight).sum := by
  simp [weight_eq, dimensions, Body.dimensions, children, Body.children]

theorem weight_shapeValue (a : ArrayBody Value) : a.shapeValue.weight = 1 + a.shape.length := by
  rw [weight_eq]
  simp [ArrayBody.shapeValue, dimensions, children, Function.comp_def, weight_leaf, List.map_const']

theorem weight_descriptorValue_lt (typeName : String) (a : ArrayBody Value) :
    a.descriptorValue.weight < (Value.object typeName (.array a)).weight := by
  have := weight_pos a.subtype
  rw [weight_array]
  obtain ⟨_, _, _ | d, _, _, _, _, _⟩ := a
  · simp only [ArrayBody.descriptorValue, ArrayBody.children, weight_leaf, List.map_cons,
      List.sum_cons] at *
    omega
  · simp only [ArrayBody.descriptorValue, ArrayBody.children, weight_descriptor, List.map_cons,
      List.sum_cons] at *
    omega

end Value

open Value in
theorem Descriptor.weight_lt_of_mem_fields {d : Descriptor Value} {typeName name : String}
    {w : Value} (h : (name, w) ∈ d.fields) :
    w.weight < (Value.object typeName (.descriptor d)).weight := by
  have leaf (l : Leaf) : (Value.leaf l).weight < (Value.object typeName (.descriptor d)).weight := by
    have := weight_pos d.align
    rw [weight_descriptor, weight_leaf, Descriptor.children, List.map_cons, List.sum_cons]
    omega
  have child {c : Value} (hc : c ∈ d.children) :
      c.weight < (Value.object typeName (.descriptor d)).weight :=
    Value.weight_lt_of_mem (v := .object typeName (.descriptor d)) hc
  obtain ⟨_, _, _, _ | s⟩ := d
  · simp only [fields, Option.map_none, Option.getD_none, List.append_nil, List.mem_cons,
      Prod.mk.injEq, List.not_mem_nil, or_false] at h
    rcases h with ⟨_, rfl⟩ | ⟨_, rfl⟩ | ⟨_, rfl⟩ | ⟨_, rfl⟩
    · exact leaf _
    · exact leaf _
    · exact child (by simp [children])
    · exact child (by simp [children])
  · simp only [fields, stateFields, Option.map_some, Option.getD_some, List.cons_append,
      List.nil_append, List.mem_cons, Prod.mk.injEq, List.not_mem_nil, or_false] at h
    rcases h with ⟨_, rfl⟩ | ⟨_, rfl⟩ | h
    · exact leaf _
    · exact leaf _
    · apply child
      simp only [children, DescriptorState.children, List.mem_cons, List.not_mem_nil, or_false]
      rcases h with ⟨_, rfl⟩ | ⟨_, rfl⟩ | ⟨_, rfl⟩ | ⟨_, rfl⟩ | ⟨_, rfl⟩ | ⟨_, rfl⟩ | ⟨_, rfl⟩ |
        ⟨_, rfl⟩ | ⟨_, rfl⟩ | ⟨_, rfl⟩ <;> simp

open Value in
theorem ArrayBody.weight_lt_of_mem_fields {a : ArrayBody Value} {typeName name : String} {w : Value}
    (h : (name, w) ∈ a.fields) : w.weight < (Value.object typeName (.array a)).weight := by
  have leaf (l : Leaf) : (Value.leaf l).weight < (Value.object typeName (.array a)).weight := by
    have := weight_pos a.subtype
    rw [weight_array, weight_leaf, ArrayBody.children, List.map_cons, List.sum_cons]
    omega
  have subtype : a.subtype.weight < (Value.object typeName (.array a)).weight :=
    Value.weight_lt_of_mem (v := .object typeName (.array a)) (List.mem_cons_self ..)
  have shape : a.shapeValue.weight < (Value.object typeName (.array a)).weight := by
    have := weight_pos a.subtype
    rw [weight_array, weight_shapeValue, ArrayBody.children, List.map_cons, List.sum_cons]
    omega
  have descriptor := weight_descriptorValue_lt typeName a
  have option {β : Type} (f : β → Value) (hf : ∀ b, ∃ l, f b = .leaf l) (o : Option β) :
      ((o.map f).getD .none).weight < (Value.object typeName (.array a)).weight := by
    cases o with
    | none => exact leaf _
    | some b =>
      obtain ⟨l, hl⟩ := hf b
      simpa [hl] using leaf l
  unfold fields at h
  split at h <;>
    simp only [List.mem_cons, Prod.mk.injEq, List.not_mem_nil, or_false] at h <;>
    rcases h with ⟨_, rfl⟩ | ⟨_, rfl⟩ | ⟨_, rfl⟩ | ⟨_, rfl⟩ | ⟨_, rfl⟩ | ⟨_, rfl⟩
  · exact subtype
  · exact descriptor
  · exact shape
  · exact option _ (fun _ => ⟨_, rfl⟩) _
  · exact option _ (fun _ => ⟨_, rfl⟩) _
  · exact leaf _
  · exact subtype
  · exact shape
  · exact option _ (fun _ => ⟨_, rfl⟩) _
  · exact descriptor
  · exact leaf _
  · exact leaf _

theorem Body.weight_lt_of_mem_fields {b : Body Value} {typeName name : String} {w : Value}
    (h : (name, w) ∈ b.fields) : w.weight < (Value.object typeName b).weight := by
  cases b with
  | descriptor d => exact d.weight_lt_of_mem_fields h
  | array a => exact a.weight_lt_of_mem_fields h
  | tree t =>
    apply Value.weight_lt_of_mem
    simp only [fields, TreeBody.fields, List.mem_cons, Prod.mk.injEq, List.not_mem_nil,
      or_false] at h
    simp only [Value.children, children, TreeBody.children, List.mem_cons, List.not_mem_nil,
      or_false]
    rcases h with ⟨_, rfl⟩ | ⟨_, rfl⟩ | ⟨_, rfl⟩ | ⟨_, rfl⟩ | ⟨_, rfl⟩ | ⟨_, rfl⟩ | ⟨_, rfl⟩ <;> simp
  | attributes entries =>
    apply Value.weight_lt_of_mem
    exact List.mem_map.mpr ⟨(name, w), h, rfl⟩
  | unresolved => simp [fields] at h

namespace Value

def typeMember : String := "__type__"

def toJson : Value → Json
  | .leaf l => l.toJson
  | .sequence _ items => .array (items.attach.map fun ⟨c, _⟩ => toJson c)
  | .dict entries =>
    .ofMembers (entries.attach.map fun ⟨(k, v), _⟩ =>
      (match k.string? with
        | some s => s
        | .none => (toJson k).compact,
       toJson v))
  | .object typeName body =>
    .ofMembers ((typeMember, .string typeName)
      :: body.fields.attach.map fun ⟨(name, v), _⟩ => (name, toJson v))
termination_by v => v.weight
decreasing_by
  · exact weight_lt_of_mem (v := .sequence _ items) ‹_›
  · exact weight_lt_of_mem (v := .dict entries) (List.mem_flatMap.mpr ⟨_, ‹_›, by simp⟩)
  · exact weight_lt_of_mem (v := .dict entries) (List.mem_flatMap.mpr ⟨_, ‹_›, by simp⟩)
  · exact Body.weight_lt_of_mem_fields ‹_›

def memberName (key : Value) : String :=
  match key.string? with
  | some s => s
  | .none => key.toJson.compact

theorem toJson_sequence (kind : SequenceKind) (items : List Value) :
    (Value.sequence kind items).toJson = .array (items.map toJson) := by
  rw [toJson]
  congr 1
  exact List.attach_map_val ..

theorem toJson_dict (entries : List (Value × Value)) :
    (Value.dict entries).toJson =
      .ofMembers (entries.map fun (k, v) => (k.memberName, v.toJson)) := by
  rw [toJson]
  congr 1
  conv => rhs; rw [← List.attach_map_subtype_val entries, List.map_map]
  rfl

theorem toJson_object (typeName : String) (body : Body Value) :
    (Value.object typeName body).toJson =
      .ofMembers ((typeMember, .string typeName) ::
        body.fields.map fun (name, v) => (name, v.toJson)) := by
  rw [toJson]
  congr 2
  conv => rhs; rw [← List.attach_map_subtype_val body.fields, List.map_map]
  rfl

end Value

end PickledModel
