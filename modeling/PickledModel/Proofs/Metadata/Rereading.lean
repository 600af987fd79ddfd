import PickledModel.Metadata.Basic
import PickledModel.Proofs.Json.Writing

/-! Schemas read again. The document of a schema is read as the schema from every tree
that writes it: a member that is left out is read as absent, a default that is null is
kept, the members without a meaning are those that stay, and lists keep their order. -/

set_option autoImplicit false

namespace PickledModel

namespace Members

variable {α : Type} {name : String}

@[simp] theorem get?_nil : get? name ([] : List (String × α)) = none := rfl

@[simp] theorem get?_cons (m : String × α) (ms : List (String × α)) :
    get? name (m :: ms) = if m.1 = name then some m.2 else get? name ms := by
  by_cases h : m.1 = name <;> simp [get?, h]

@[simp] theorem get?_append (ms more : List (String × α)) :
    get? name (ms ++ more) = (get? name ms).or (get? name more) := by
  rw [get?, get?, get?, List.find?_append]
  cases ms.find? (·.1 == name) <;> rfl

@[simp] theorem get?_toList {β : Type} (key : String) (o : Option β) (f : β → α) :
    get? name (o.map fun b => (key, f b)).toList = if key = name then o.map f else none := by
  cases o with
  | none => simp [get?]
  | some b => by_cases h : key = name <;> simp [get?, h]

@[simp] theorem get?_toList_mk (key : String) (o : Option α) :
    get? name (o.map (Prod.mk key)).toList = if key = name then o else none := by
  rw [get?_toList key o fun a => a, Option.map_id']

theorem get?_eq_none {ms : List (String × α)} (h : name ∉ ms.map Prod.fst) :
    get? name ms = none := by
  rw [get?, List.find?_eq_none.mpr, Option.map_none]
  intro m hm heq
  exact h (List.mem_map.mpr ⟨m, hm, by simpa using heq⟩)

end Members

namespace Json.Fragment

variable {α : Type} {p : Fragment α} {j : Json} {a : α}

def Reads (p : Fragment α) (j : Json) (a : α) : Prop :=
  ∀ levels r, Writes levels r j → p levels r = some a

theorem string_reads (s : String) : Reads string (.string s) s := by
  intro levels r h
  obtain ⟨us, rfl, hs⟩ := h.of_string
  exact hs

theorem bool_reads (b : Bool) : Reads bool (.bool b) b := by
  intro levels r h
  rw [h.of_bool]
  rfl

theorem document_reads (j : Json) : Reads document j j := fun _ _ h => h.read

/-- What is there is told from null. -/
theorem optional_reads (hj : j ≠ .null) (h : Reads p j a) : Reads (optional p) j (some a) := by
  intro levels r hw
  have hr := h levels r hw
  cases r with
  | null => exact absurd hw.eq_null hj
  | _ => exact congrArg (Option.map some) hr

theorem array_reads {js : List Json} {as : List α} (h : List.Forall₂ (Reads p) js as) :
    Reads (array p) (.array js) as := by
  intro levels r hw
  obtain ⟨l, items, rfl, rfl, hitems⟩ := hw.of_array
  rw [array]
  apply mapM_eq_some_iff.mpr
  clear hw
  induction h generalizing items with
  | nil =>
    cases hitems
    exact .nil
  | cons ha _ ih =>
    cases hitems with
    | cons hr hrs => exact .cons (ha _ _ hr) (ih _ hrs)

abbrev Mirrors (levels : Nat) (ms : List (String × Raw)) (es : List (String × Json)) : Prop :=
  List.Forall₂ (fun m e => m.1 = e.1 ∧ Writes levels m.2 e.2) ms es

theorem members_eq_some_iff {ms : List (List StringUnit × Raw)} {named : List (String × Raw)} :
    members ms = some named ↔
      List.Forall₂ (fun m n => text? m.1 = some n.1 ∧ m.2 = n.2) ms named := by
  have hmember : ∀ (m : List StringUnit × Raw) (n : String × Raw),
      (do return (← text? m.1, m.2) : Option (String × Raw)) = some n ↔
        text? m.1 = some n.1 ∧ m.2 = n.2 := by
    rintro ⟨us, r⟩ ⟨name, r'⟩
    cases text? us <;> simp
  rw [members, mapM_eq_some_iff]
  exact ⟨fun h => h.imp fun m n => (hmember m n).mp, fun h => h.imp fun m n => (hmember m n).mpr⟩

theorem exists_members {levels : Nat} {r : Raw} {es : List (String × Json)}
    (h : Writes levels r (.object es)) :
    ∃ l ms named, levels = l + 1 ∧ r = .object ms ∧ members ms = some named ∧
      (es.map Prod.fst).Nodup ∧ Mirrors l named es := by
  obtain ⟨l, ms, rfl, rfl, hnames, hms⟩ := h.of_object
  have hnamed : ∃ named : List (String × Raw),
      List.Forall₂ (fun m n => text? m.1 = some n.1 ∧ m.2 = n.2) ms named ∧
        Mirrors l named es := by
    clear h hnames
    induction hms with
    | nil => exact ⟨[], .nil, .nil⟩
    | @cons m e ms es hm _ ih =>
      obtain ⟨named, hnamed, hmirrors⟩ := ih
      exact ⟨(e.1, m.2) :: named, .cons ⟨hm.1, rfl⟩ hnamed, .cons ⟨rfl, hm.2⟩ hmirrors⟩
  obtain ⟨named, hnamed, hmirrors⟩ := hnamed
  exact ⟨l, ms, named, rfl, rfl, members_eq_some_iff.mpr hnamed, hnames, hmirrors⟩

variable {levels : Nat} {ms : List (String × Raw)} {es : List (String × Json)}

theorem Mirrors.names (h : Mirrors levels ms es) : ms.map Prod.fst = es.map Prod.fst := by
  induction h with
  | nil => rfl
  | cons hm _ ih => rw [List.map_cons, List.map_cons, hm.1, ih]

theorem filter_eq_nil {name : String} (h : name ∉ ms.map Prod.fst) :
    ms.filter (·.1 == name) = [] := by
  refine List.filter_eq_nil_iff.mpr fun m hm heq => ?_
  exact h (List.mem_map.mpr ⟨m, hm, by simpa using heq⟩)

/-- A member is read from the one part of the tree that writes it, or is not there. -/
theorem Mirrors.filter_eq (h : Mirrors levels ms es) (hnames : (es.map Prod.fst).Nodup)
    (name : String) :
    (Members.get? name es = none ∧ ms.filter (·.1 == name) = []) ∨
      ∃ j r, Members.get? name es = some j ∧ ms.filter (·.1 == name) = [(name, r)] ∧
        Writes levels r j := by
  induction h with
  | nil => exact .inl ⟨rfl, rfl⟩
  | @cons m e ms es hm hms ih =>
    obtain ⟨n, r⟩ := m
    obtain ⟨rfl, hw⟩ := hm
    obtain ⟨hnew, hrest⟩ := List.nodup_cons.mp hnames
    by_cases heq : e.1 = name
    · subst heq
      rw [← Mirrors.names hms] at hnew
      refine .inr ⟨e.2, r, ?_, ?_, hw⟩
      · simp [Members.get?]
      · rw [List.filter_cons_of_pos (by simp), filter_eq_nil hnew]
    · rw [List.filter_cons_of_neg (by simpa using heq)]
      have hget : Members.get? name (e :: es) = Members.get? name es := by
        simp [Members.get?, heq]
      rw [hget]
      exact ih hrest

/-- A member that stands for something is read as that. -/
theorem Mirrors.member_eq {β : Type} {q : Fragment β} {b : β} {default : Option β} {name : String}
    (h : Mirrors levels ms es) (hnames : (es.map Prod.fst).Nodup)
    (hread : ∀ j, Members.get? name es = some j → Reads q j b)
    (habsent : Members.get? name es = none → default = some b) :
    member levels ms name q default = some b := by
  rcases h.filter_eq hnames name with ⟨hget, hfilter⟩ | ⟨j, r, hget, hfilter, hw⟩
  · rw [member, hfilter]
    exact habsent hget
  · rw [member, hfilter]
    exact hread j hget levels r hw

/-- A member that may be missing. -/
theorem Mirrors.optionalMember {o : Option α} {f : α → Json} {q : Fragment (Option α)}
    {name : String} (h : Mirrors levels ms es) (hnames : (es.map Prod.fst).Nodup)
    (hget : Members.get? name es = o.map f) (hread : ∀ a, Reads q (f a) (some a)) :
    member levels ms name q (some none) = some o := by
  apply h.member_eq hnames
  · intro j hj
    rw [hget] at hj
    obtain ⟨a, rfl, rfl⟩ := Option.map_eq_some_iff.mp hj
    exact hread a
  · intro hnone
    rw [hget, Option.map_eq_none_iff] at hnone
    rw [hnone]

/-- A member that is missing if its list is empty. -/
theorem Mirrors.listMember {js : List Json} {as : List α} {name : String}
    (h : Mirrors levels ms es) (hnames : (es.map Prod.fst).Nodup)
    (hget : Members.get? name es = if js.isEmpty then none else some (.array js))
    (hread : List.Forall₂ (Reads p) js as) :
    member levels ms name (array p) (some []) = some as := by
  cases hread with
  | nil =>
    refine h.member_eq hnames (fun j hj => ?_) fun _ => rfl
    rw [hget] at hj
    cases hj
  | cons ha has =>
    refine h.member_eq hnames (fun j hj => ?_) fun hnone => ?_
    · rw [hget] at hj
      cases hj
      exact array_reads (.cons ha has)
    · rw [hget] at hnone
      cases hnone

theorem of_member {β : Type} {q : Fragment β} {b : β} {default : Option β} {name : String}
    (h : member levels ms name q default = some b) :
    (∃ r, q levels r = some b) ∨ default = some b := by
  unfold member at h
  split at h
  · exact .inr h
  · exact .inl ⟨_, h⟩
  · cases h

theorem of_item {β : Type} {q : Fragment β} {b : β} {default : Option β} {items : List Raw}
    {i : Nat} (h : item levels items i q default = some b) :
    (∃ r, q levels r = some b) ∨ default = some b := by
  unfold item at h
  split at h
  · exact .inl ⟨_, h⟩
  · exact .inr h

theorem of_array {as : List α} {r : Raw} (h : array p levels r = some as) :
    ∃ l, levels = l + 1 ∧ ∀ a ∈ as, ∃ r, p l r = some a := by
  unfold array at h
  split at h
  · next l items =>
    refine ⟨l, rfl, fun a ha => ?_⟩
    obtain ⟨r, -, hr⟩ := forall₂_mem_right (mapM_eq_some_iff.mp h) ha
    exact ⟨r, hr⟩
  · cases h

theorem of_optional {r : Raw} (h : optional p levels r = some (some a)) : p levels r = some a := by
  unfold optional at h
  split at h
  · cases h
  · obtain ⟨b, hb, heq⟩ := Option.map_eq_some_iff.mp h
    cases heq
    exact hb

end Json.Fragment

theorem Json.names_optional {α : Type} (key : String) (o : Option α) (f : α → Json) :
    List.Sublist ((o.map fun a => (key, f a)).toList.map Prod.fst) [key] := by
  cases o <;> simp

namespace AttributeSchema
open Json Json.Fragment

def fields (a : AttributeSchema) : List (String × Json) :=
  [("name", .string a.name)]
    ++ (a.type.map fun s => ("type", Json.string s)).toList
    ++ (a.description.map fun s => ("description", Json.string s)).toList
    ++ (a.option.map fun s => ("option", Json.string s)).toList
    ++ (a.visible.map fun b => ("visible", Json.bool b)).toList
    ++ (a.default.map fun j => ("default", j)).toList

theorem toJson_eq (a : AttributeSchema) : a.toJson = .object a.fields := rfl

theorem toJson_reads (a : AttributeSchema) : Reads ofRaw? a.toJson a := by
  intro levels r h
  rw [toJson_eq] at h
  obtain ⟨l, ms, named, rfl, rfl, hnamed, hnames, hmirrors⟩ := exists_members h
  have hstring : ∀ s : String, Reads (optional string) (.string s) (some s) :=
    fun s => optional_reads (by simp) (string_reads s)
  have hbool : ∀ b : Bool, Reads (optional bool) (.bool b) (some b) :=
    fun b => optional_reads (by simp) (bool_reads b)
  have hname : member l named "name" string none = some a.name := by
    have hget : Members.get? "name" a.fields = some (.string a.name) := by
      simp [fields]
    apply hmirrors.member_eq hnames
    · intro j hj
      rw [hget] at hj
      cases hj
      exact string_reads a.name
    · intro hnone
      rw [hget] at hnone
      cases hnone
  have htype : member l named "type" (optional string) (some none) = some a.type :=
    hmirrors.optionalMember hnames (by simp [fields]) hstring
  have hdescription : member l named "description" (optional string) (some none) =
      some a.description := hmirrors.optionalMember hnames (by simp [fields]) hstring
  have hoption : member l named "option" (optional string) (some none) = some a.option :=
    hmirrors.optionalMember hnames (by simp [fields]) hstring
  have hvisible : member l named "visible" (optional bool) (some none) = some a.visible :=
    hmirrors.optionalMember hnames (by simp [fields]) hbool
  have hdefault : member l named "default" (fun n r => (document n r).map some) (some none) =
      some a.default := by
    apply hmirrors.optionalMember hnames (o := a.default) (f := id) (by simp [fields])
    intro j n r hw
    exact congrArg (Option.map some) (document_reads j n r hw)
  rw [ofRaw?, hnamed]
  simp only [hname, htype, hdescription, hoption, hvisible, hdefault, Option.bind_eq_bind,
    Option.bind_some]
  rfl

theorem fields_names (a : AttributeSchema) : (a.fields.map Prod.fst).Nodup := by
  have hsublist : List.Sublist (a.fields.map Prod.fst)
      (["name"] ++ ["type"] ++ ["description"] ++ ["option"] ++ ["visible"] ++ ["default"]) := by
    simp only [fields, List.map_append]
    refine .append (.append (.append (.append (.append ?_ ?_) ?_) ?_) ?_) ?_
    · exact List.Sublist.refl _
    all_goals exact names_optional _ _ _
  exact hsublist.nodup (by decide)

theorem default_of_read {levels : Nat} {r : Raw} {a : AttributeSchema}
    (h : ofRaw? levels r = some a) :
    ∃ l, levels = l + 1 ∧ ∀ d, a.default = some d → Legible l d := by
  have hdocument : ∀ {l : Nat} {default : Option Json},
      (∃ r, (document l r).map some = some default) ∨ some none = some default →
        ∀ d, default = some d → Legible l d := by
    rintro l default (⟨r, hr⟩ | hnone) d rfl
    · obtain ⟨j, hj, heq⟩ := Option.map_eq_some_iff.mp hr
      cases heq
      exact .of_read hj
    · cases hnone
  unfold ofRaw? at h
  split at h
  · next l ms =>
    simp only [Option.bind_eq_bind, Option.bind_eq_some_iff, Option.pure_def,
      Option.some.injEq] at h
    obtain ⟨named, -, name, -, type, -, description, -, option, -, visible, -, default, hdefault,
      rfl⟩ := h
    exact ⟨l, rfl, hdocument (of_member hdefault)⟩
  · next l items =>
    by_cases hlength : 6 < items.length
    · simp [hlength] at h
    simp only [hlength, if_false, Option.bind_eq_bind, Option.bind_eq_some_iff, Option.pure_def,
      Option.some.injEq] at h
    obtain ⟨name, -, type, -, description, -, option, -, visible, -, default, hdefault, rfl⟩ := h
    exact ⟨l, rfl, hdocument (of_item hdefault)⟩
  · cases h

/-- An attribute schema that is read can be written within the same levels. -/
theorem legible_of_read {levels : Nat} {r : Raw} {a : AttributeSchema}
    (h : ofRaw? levels r = some a) : Legible levels a.toJson := by
  obtain ⟨l, rfl, hdefault⟩ := default_of_read h
  refine Legible.object a.fields_names fun e he => ?_
  simp only [List.mem_append, List.mem_singleton, Option.mem_toList,
    Option.map_eq_some_iff] at he
  rcases he with ((((rfl | ⟨s, -, rfl⟩) | ⟨s, -, rfl⟩) | ⟨s, -, rfl⟩) | ⟨b, -, rfl⟩) | ⟨d, hd, rfl⟩
  · exact .string l _
  · exact .string l s
  · exact .string l s
  · exact .string l s
  · exact ⟨_, .bool l b⟩
  · exact hdefault d hd

end AttributeSchema

namespace OperatorSchema
open Json Json.Fragment

structure Separate (s : OperatorSchema) : Prop where
  unknown : ∀ e ∈ s.extra, e.1 ∉ known
  names : (s.extra.map Prod.fst).Nodup

def fields (s : OperatorSchema) : List (String × Json) :=
  (s.name.map fun t => ("name", Json.string t)).toList
    ++ (s.description.map fun t => ("description", Json.string t)).toList
    ++ (s.category.map fun t => ("category", Json.string t)).toList
    ++ listMember "attributes" (s.attributes.map AttributeSchema.toJson)
    ++ listMember "inputs" s.inputs
    ++ listMember "outputs" s.outputs
    ++ listMember "references" s.references
    ++ s.extra

theorem toJson_eq (s : OperatorSchema) : s.toJson = .object s.fields := rfl

@[simp] theorem get?_listMember (name key : String) (items : List Json) :
    Members.get? name (listMember key items) =
      if key = name then if items.isEmpty then none else some (.array items) else none := by
  rw [listMember]
  by_cases h : items.isEmpty = true <;> simp [h]

theorem filter_optional {α : Type} {key : String} (h : key ∈ known) (o : Option α)
    (f : α → Json) :
    (o.map fun a => (key, f a)).toList.filter (fun m => !known.contains m.1) = [] := by
  cases o with
  | none => rfl
  | some a => simpa using h

theorem filter_listMember {key : String} (h : key ∈ known) (items : List Json) :
    (listMember key items).filter (fun m => !known.contains m.1) = [] := by
  rw [listMember]
  split
  · rfl
  · simpa using h

/-- Among the members that write a schema those without a meaning stand last. -/
theorem Separate.filter_fields {s : OperatorSchema} (hs : s.Separate) :
    s.fields.filter (fun m => !known.contains m.1) = s.extra := by
  have hextra : s.extra.filter (fun m => !known.contains m.1) = s.extra := by
    refine List.filter_eq_self.mpr fun e he => ?_
    simpa using hs.unknown e he
  simp (disch := decide) only [fields, List.filter_append, hextra, filter_optional,
    filter_listMember, List.nil_append]

/-- The other members are read as they are written, in their order. -/
theorem Separate.extra_eq {s : OperatorSchema} (hs : s.Separate) {levels : Nat}
    {ms : List (String × Raw)} (h : Mirrors levels ms s.fields) :
    (ms.filter fun m => !known.contains m.1).mapM
      (fun (name, r) => do return (name, ← document levels r)) = some s.extra := by
  have hfilter := List.rel_filter (R := fun (m : String × Raw) (e : String × Json) =>
    m.1 = e.1 ∧ Writes levels m.2 e.2) (p := fun m => !known.contains m.1)
    (q := fun e => !known.contains e.1) (fun m e hme => by simp [hme.1]) h
  rw [hs.filter_fields] at hfilter
  refine mapM_eq_some_iff.mpr (hfilter.imp fun m e hme => ?_)
  obtain ⟨n, r⟩ := m
  obtain ⟨rfl, hw⟩ := hme
  change (document levels r).bind (fun j => some (e.1, j)) = some e
  rw [document_reads e.2 levels r hw]
  rfl

theorem Separate.toJson_reads {s : OperatorSchema} (hs : s.Separate) :
    Reads ofRaw? s.toJson s := by
  intro levels r h
  rw [toJson_eq] at h
  obtain ⟨l, ms, named, rfl, rfl, hnamed, hnames, hmirrors⟩ := exists_members h
  have hstring : ∀ t : String, Reads (optional string) (.string t) (some t) :=
    fun t => optional_reads (by simp) (string_reads t)
  have hdocuments : ∀ js : List Json, List.Forall₂ (Reads document) js js :=
    fun js => List.forall₂_same.mpr fun j _ => document_reads j
  have hattributes : List.Forall₂ (Reads AttributeSchema.ofRaw?)
      (s.attributes.map AttributeSchema.toJson) s.attributes :=
    List.forall₂_map_left_iff.mpr (List.forall₂_same.mpr fun a _ => a.toJson_reads)
  have hother : ∀ n ∈ known, Members.get? n s.extra = none := by
    intro n hn
    apply Members.get?_eq_none
    intro hmem
    obtain ⟨e, he, rfl⟩ := List.mem_map.mp hmem
    exact hs.unknown e he hn
  have hname : member l named "name" (optional string) (some none) = some s.name :=
    hmirrors.optionalMember hnames (by simp (disch := decide) [fields, hother]) hstring
  have hdescription : member l named "description" (optional string) (some none) =
      some s.description :=
    hmirrors.optionalMember hnames (by simp (disch := decide) [fields, hother]) hstring
  have hcategory : member l named "category" (optional string) (some none) = some s.category :=
    hmirrors.optionalMember hnames (by simp (disch := decide) [fields, hother]) hstring
  have hattributes : member l named "attributes" (array AttributeSchema.ofRaw?) (some []) =
      some s.attributes :=
    hmirrors.listMember hnames (by simp (disch := decide) [fields, hother]) hattributes
  have hinputs : member l named "inputs" (array document) (some []) = some s.inputs :=
    hmirrors.listMember hnames (by simp (disch := decide) [fields, hother]) (hdocuments _)
  have houtputs : member l named "outputs" (array document) (some []) = some s.outputs :=
    hmirrors.listMember hnames (by simp (disch := decide) [fields, hother]) (hdocuments _)
  have hreferences : member l named "references" (array document) (some []) =
      some s.references :=
    hmirrors.listMember hnames (by simp (disch := decide) [fields, hother]) (hdocuments _)
  rw [ofRaw?, hnamed, Option.bind_eq_bind, Option.bind_some, hs.extra_eq hmirrors]
  simp only [hname, hdescription, hcategory, hattributes, hinputs, houtputs, hreferences,
    Option.bind_eq_bind, Option.bind_some, Members.ofList_of_nodup hs.names]
  rfl

theorem names_listMember (key : String) (items : List Json) :
    List.Sublist ((listMember key items).map Prod.fst) [key] := by
  rw [listMember]
  split <;> simp

theorem Separate.fields_names {s : OperatorSchema} (hs : s.Separate) :
    (s.fields.map Prod.fst).Nodup := by
  have hsublist : List.Sublist (s.fields.map Prod.fst)
      (["name"] ++ ["description"] ++ ["category"] ++ ["attributes"] ++ ["inputs"] ++ ["outputs"]
        ++ ["references"] ++ s.extra.map Prod.fst) := by
    simp only [fields, List.map_append]
    refine .append (.append (.append (.append (.append (.append (.append ?_ ?_) ?_) ?_) ?_) ?_) ?_)
      (List.Sublist.refl _)
    · exact names_optional _ _ _
    · exact names_optional _ _ _
    · exact names_optional _ _ _
    all_goals exact names_listMember _ _
  refine hsublist.nodup (List.nodup_append.mpr ⟨by decide, hs.names, fun n hn n' hn' heq => ?_⟩)
  obtain ⟨e, he, rfl⟩ := List.mem_map.mp hn'
  subst heq
  exact hs.unknown e he (by simpa [known] using hn)

structure Sound (levels : Nat) (s : OperatorSchema) : Prop extends s.Separate where
  legible : ∀ e ∈ s.fields, Legible levels e.2

theorem Sound.toJson_legible {levels : Nat} {s : OperatorSchema} (hs : s.Sound levels) :
    Legible (levels + 1) s.toJson :=
  Legible.object hs.fields_names hs.legible

/-- A schema that is given a name is no harder to write. -/
theorem Sound.named {levels : Nat} {s : OperatorSchema} (hs : s.Sound levels) (name : String) :
    Sound levels { s with name := some name } := by
  refine ⟨⟨hs.unknown, hs.names⟩, fun e he => ?_⟩
  have hcases : e = ("name", .string name) ∨ e ∈ s.fields := by
    simp only [fields, List.mem_append, Option.mem_toList] at he ⊢
    rcases he with ((((((he | he) | he) | he) | he) | he) | he) | he
    · cases he
      exact .inl rfl
    all_goals simp only [he, true_or, or_true]
  rcases hcases with rfl | he
  · exact .string levels name
  · exact hs.legible e he

/-- A list of parts that is read can be written within the same levels. -/
theorem listMember_legible {α : Type} {p : Fragment α} {f : α → Json}
    (hp : ∀ {levels : Nat} {r : Raw} {a : α}, p levels r = some a → Legible levels (f a))
    {levels : Nat} {ms : List (String × Raw)} {name : String} {as : List α}
    (h : member levels ms name (array p) (some []) = some as) :
    ∀ e ∈ listMember name (as.map f), Legible levels e.2 := by
  intro e he
  rcases of_member h with ⟨r, hr⟩ | hempty
  · obtain ⟨l, rfl, has⟩ := of_array hr
    have heq : e.2 = .array (as.map f) := by
      rw [listMember] at he
      split at he
      · cases he
      · rw [List.mem_singleton.mp he]
    rw [heq]
    refine .array fun j hj => ?_
    obtain ⟨a, ha, rfl⟩ := List.mem_map.mp hj
    obtain ⟨r', hr'⟩ := has a ha
    exact hp hr'
  · cases hempty
    cases he

/-- The other members are read from members with their names. -/
theorem extra_of_read {levels : Nat} {ms : List (String × Raw)} {extra : List (String × Json)}
    (h : (ms.filter fun m => !known.contains m.1).mapM
      (fun (name, r) => do return (name, ← document levels r)) = some extra) :
    ∀ e ∈ extra, e.1 ∉ known ∧ Legible levels e.2 := by
  intro e he
  obtain ⟨⟨n, r⟩, hm, hread⟩ := forall₂_mem_right (mapM_eq_some_iff.mp h) he
  obtain ⟨j, hj, heq⟩ := Option.bind_eq_some_iff.mp hread
  cases heq
  obtain ⟨-, hn⟩ := List.mem_filter.mp hm
  exact ⟨by simpa using hn, .of_read hj⟩

theorem sound_of_read {levels : Nat} {r : Raw} {s : OperatorSchema}
    (h : ofRaw? levels r = some s) : ∃ l, levels = l + 1 ∧ s.Sound l := by
  unfold ofRaw? at h
  split at h
  · next l ms =>
    simp only [Option.bind_eq_bind, Option.bind_eq_some_iff, Option.pure_def,
      Option.some.injEq] at h
    obtain ⟨named, -, extra, hextra, name, -, description, -, category, -, attributes, hattributes,
      inputs, hinputs, outputs, houtputs, references, hreferences, rfl⟩ := h
    have hother : ∀ e ∈ Members.ofList extra, e.1 ∉ known ∧ Legible l e.2 := by
      intro e he
      obtain ⟨before, after, hsplit, -⟩ := Members.mem_ofList_iff.mp he
      apply extra_of_read hextra
      rw [hsplit]
      exact List.mem_append_right before List.mem_cons_self
    refine ⟨l, rfl, ⟨fun e he => (hother e he).1, Members.ofList_nodup extra⟩, fun e he => ?_⟩
    simp only [fields, List.mem_append, Option.mem_toList, Option.map_eq_some_iff] at he
    rcases he with ((((((⟨t, -, rfl⟩ | ⟨t, -, rfl⟩) | ⟨t, -, rfl⟩) | he) | he) | he) | he) | he
    · exact .string l t
    · exact .string l t
    · exact .string l t
    · exact listMember_legible AttributeSchema.legible_of_read hattributes e he
    · exact listMember_legible (f := id) .of_read hinputs e (by rwa [List.map_id])
    · exact listMember_legible (f := id) .of_read houtputs e (by rwa [List.map_id])
    · exact listMember_legible (f := id) .of_read hreferences e (by rwa [List.map_id])
    · exact (hother e he).2
  · cases h

end OperatorSchema

end PickledModel
