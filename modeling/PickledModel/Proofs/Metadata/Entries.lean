import PickledModel.Proofs.Json.Parsing
import PickledModel.Proofs.Metadata.Rereading

/-! Schemas that survive. The schema of an operator in the metadata of a document, and its
documentation, are written as the schema of an entry of their own; what is read from the
entry is what was written. -/

set_option autoImplicit false

namespace PickledModel.Metadata
open Json Json.Fragment

def ofRaw? (r : Raw) : Option Metadata := do
  let entries ← optional (array entry?) maxLevels r
  return ofEntries (entries.getD [])

theorem parse?_eq (text : String) : parse? text = (Raw.parse? text).bind ofRaw? := rfl

def entryDocument (operator : String) (s : OperatorSchema) : Json :=
  .array [.object [("name", .string operator), ("schema", s.toJson)]]

/-- An entry gives a schema for its name only if that was read, two levels further in. -/
theorem sound_of_entry {levels : Nat} {r : Raw} {name : String} {s : OperatorSchema}
    (h : entry? levels r = some (some name, some s)) :
    ∃ l, levels = l + 2 ∧ s.Sound l := by
  have hschema : ∀ {l : Nat}, (∃ r, optional OperatorSchema.ofRaw? l r = some (some s)) ∨
      some none = some (some s) → ∃ l', l + 1 = l' + 2 ∧ s.Sound l' := by
    rintro l (⟨r, hr⟩ | hnone)
    · obtain ⟨l', rfl, hs⟩ := OperatorSchema.sound_of_read (of_optional hr)
      exact ⟨l', rfl, hs⟩
    · cases hnone
  unfold entry? at h
  split at h
  · simp only [Option.bind_eq_bind, Option.bind_eq_some_iff, Option.pure_def,
      Option.some.injEq] at h
    obtain ⟨named, -, _, -, _, hmember, heq⟩ := h
    cases heq
    exact hschema (of_member hmember)
  · next items =>
    by_cases hlength : 2 < items.length
    · simp [hlength] at h
    simp only [hlength, if_false, Option.bind_eq_bind, Option.bind_eq_some_iff, Option.pure_def,
      Option.some.injEq] at h
    obtain ⟨_, -, _, hitem, heq⟩ := h
    cases heq
    exact hschema (of_item hitem)
  · cases h

/-- A schema in the metadata of a document was read from an entry with its name. -/
theorem schema_sound {r : Raw} {m : Metadata} {operator : String} {s : OperatorSchema}
    (hm : ofRaw? r = some m) (hs : m.schema? operator = some s) :
    ∃ l, maxLevels = l + 3 ∧ s.Sound l := by
  obtain ⟨entries, hentries, heq⟩ := Option.bind_eq_some_iff.mp hm
  cases heq
  obtain ⟨e, hfind, rfl⟩ := Option.map_eq_some_iff.mp hs
  obtain ⟨before, after, hsplit, -⟩ :=
    Members.mem_ofList_iff.mp (List.mem_of_find?_eq_some hfind)
  have hmem := List.mem_append_right before (List.mem_cons_self (a := e) (l := after))
  rw [← hsplit] at hmem
  obtain ⟨⟨name, schema⟩, hentry, hpair⟩ := List.mem_filterMap.mp hmem
  cases entries with
  | none => cases hentry
  | some entries =>
    cases name with
    | none => cases hpair
    | some name =>
      cases schema with
      | none => cases hpair
      | some s =>
        cases hpair
        obtain ⟨l, hlevels, hread⟩ := of_array (of_optional hentries)
        obtain ⟨r', hr'⟩ := hread _ hentry
        obtain ⟨l', rfl, hs⟩ := sound_of_entry hr'
        exact ⟨l', hlevels, hs⟩

theorem entryDocument_reads (operator : String) {s : OperatorSchema} (hs : s.Separate) :
    Reads (optional (array entry?)) (entryDocument operator s)
      (some [(some operator, some s)]) := by
  apply optional_reads (by simp [entryDocument])
  refine array_reads (.cons ?_ .nil)
  intro levels r h
  obtain ⟨l, ms, named, rfl, rfl, hnamed, hnames, hmirrors⟩ := exists_members h
  have hname : member l named "name" (optional string) (some none) = some (some operator) :=
    hmirrors.optionalMember hnames (o := some operator) (f := .string) (by simp)
      fun t => optional_reads (by simp) (string_reads t)
  have hschema : member l named "schema" (optional OperatorSchema.ofRaw?) (some none) =
      some (some s) := by
    apply hmirrors.member_eq hnames
    · intro j hj
      have heq : s.toJson = j := by simpa using hj
      rw [← heq]
      exact optional_reads (by simp [OperatorSchema.toJson]) hs.toJson_reads
    · intro hnone
      simp at hnone
  simp only [hnamed, entry?, hname, hschema, Option.bind_eq_bind, Option.bind_some]
  rfl

theorem entryDocument_legible (operator : String) {levels : Nat} {s : OperatorSchema}
    (hs : s.Sound levels) : Legible (levels + 3) (entryDocument operator s) := by
  refine .array (List.forall_mem_singleton.mpr (.object (by simp) ?_))
  rw [List.forall_mem_cons, List.forall_mem_singleton]
  exact ⟨.string _ operator, hs.toJson_legible⟩

/-- The schema can be written as that of an entry, and is read again from every tree that
writes the entry. -/
structure Survives (operator : String) (s : OperatorSchema) : Prop where
  legible : Legible maxLevels (entryDocument operator s)
  read : ∀ r, Writes maxLevels r (entryDocument operator s) → ofRaw? r = some ⟨[(operator, s)]⟩

theorem survives_of_sound (operator : String) {levels : Nat} {s : OperatorSchema}
    (hlevels : maxLevels = levels + 3) (hs : s.Sound levels) : Survives operator s := by
  constructor
  · rw [hlevels]
    exact entryDocument_legible operator hs
  · intro r hr
    rw [ofRaw?, entryDocument_reads operator hs.toSeparate maxLevels r hr]
    rfl

/-- The entry is read again from its own compact text, if there are no floats in it. -/
theorem Survives.parse?_compact {operator : String} {s : OperatorSchema} (h : Survives operator s)
    (hfloatless : (entryDocument operator s).Floatless) :
    parse? (entryDocument operator s).compact = some ⟨[(operator, s)]⟩ := by
  obtain ⟨r, hr, hwrites⟩ := h.legible.parse?_compact hfloatless
  rw [parse?_eq, hr]
  exact h.read r hwrites

/-- What the metadata of a document say of an operator, its schema and its documentation,
survives being written and read again. -/
theorem schema_survives {text : String} {m : Metadata} {operator : String} {s : OperatorSchema}
    (hm : parse? text = some m) (hs : m.schema? operator = some s) :
    Survives operator s ∧ ∃ d, m.documentation? operator = some d ∧
      d = { s with name := some operator } ∧ Survives operator d := by
  rw [parse?_eq] at hm
  obtain ⟨r, -, hr⟩ := Option.bind_eq_some_iff.mp hm
  obtain ⟨l, hlevels, hsound⟩ := schema_sound hr hs
  refine ⟨survives_of_sound operator hlevels hsound, { s with name := some operator }, ?_, rfl,
    survives_of_sound operator hlevels (hsound.named operator)⟩
  rw [documentation?, hs, Option.map_some]

namespace NullDefault

/-- An operator with two members that have no meaning around its attributes, the first of which
has null for its default and the second none. -/
def text : String :=
  "[\x7b\"name\":\"E\",\"schema\":\x7b\"y\":1,\"attributes\":[\x7b\"name\":\"b\"," ++
    "\"default\":null\x7d,\x7b\"name\":\"a\"\x7d],\"x\":[true]\x7d\x7d]"

def schema : OperatorSchema where
  name := none
  description := none
  category := none
  attributes := [⟨"b", none, none, none, none, some .null⟩, ⟨"a", none, none, none, none, none⟩]
  inputs := []
  outputs := []
  references := []
  extra := [("y", .number (.natural 1)), ("x", .array [.bool true])]

theorem parse?_text : parse? text = some ⟨[("E", schema)]⟩ := by cbv

end NullDefault

open NullDefault in
theorem schema_survives_nullDefault :
    parse? text = some ⟨[("E", schema)]⟩ ∧ Survives "E" schema ∧
      Survives "E" { schema with name := some "E" } := by
  obtain ⟨hschema, d, -, rfl, hdocumentation⟩ := schema_survives parse?_text
    (show schema? ⟨[("E", schema)]⟩ "E" = some schema by cbv)
  exact ⟨parse?_text, hschema, hdocumentation⟩

end PickledModel.Metadata
