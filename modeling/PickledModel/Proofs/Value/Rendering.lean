import PickledModel.Proofs.Json.Alike
import PickledModel.Proofs.Json.Compact
import PickledModel.Proofs.Object.FieldNames
import PickledModel.Proofs.Object.StateMerging
import PickledModel.Proofs.Stream.Reaching
import PickledModel.Value.Json

/-! What a rendering leaves out. The entries of a dict become members named by the texts of
their keys, and the fields of an object members beside the one that names its type. Where
two names fall together one member stands for both, at the place of the first and with the
value of the last. -/

set_option autoImplicit false

namespace PickledModel

namespace Members

variable {α : Type} {name n : String} {v w : α} {ms : List (String × α)}

/-- A name that is there keeps its place. -/
theorem names_set_of_mem (h : name ∈ ms.map Prod.fst) (v : α) :
    (set name v ms).map Prod.fst = ms.map Prod.fst := by
  induction ms with
  | nil => cases h
  | cons m ms ih =>
    obtain ⟨k, u⟩ := m
    by_cases hk : k = name
    · simp [set, hk]
    · have hrest : name ∈ ms.map Prod.fst := by simpa [Ne.symm hk] using h
      rw [set, if_neg hk, List.map_cons, ih hrest, List.map_cons]

theorem ofList_append (ms new : List (String × α)) : ofList (ms ++ new) = update (ofList ms) new :=
  update_append [] ms new

theorem ofList_concat (ms : List (String × α)) (m : String × α) :
    ofList (ms ++ [m]) = set m.1 m.2 (ofList ms) :=
  ofList_append ms [m]

/-- Names stand where they were first mentioned. -/
theorem names_ofList (ms : List (String × α)) :
    (ofList ms).map Prod.fst = (ms.map Prod.fst).eraseDups := by
  induction ms using List.reverseRecOn with
  | nil => rfl
  | append_singleton ms m ih =>
    rw [ofList_concat, List.map_append, List.eraseDups_append, ← ih]
    have hnames : m.1 ∈ (ofList ms).map Prod.fst ↔ m.1 ∈ ms.map Prod.fst := by
      rw [ih, List.mem_eraseDups]
    by_cases hm : m.1 ∈ ms.map Prod.fst
    · rw [names_set_of_mem (hnames.mpr hm)]
      simp [List.removeAll, hm]
    · rw [set_of_absent (mt hnames.mp hm)]
      simp [List.removeAll, List.eraseDups_cons, hm]

theorem mem_names_ofList : name ∈ (ofList ms).map Prod.fst ↔ name ∈ ms.map Prod.fst := by
  rw [names_ofList, List.mem_eraseDups]

/-- There is one member for each name just if no two names are the same. -/
theorem length_ofList_iff : (ofList ms).length = ms.length ↔ (ms.map Prod.fst).Nodup := by
  refine ⟨fun h => ?_, fun h => by rw [ofList_of_nodup h]⟩
  have hsubset : (ofList ms).map Prod.fst ⊆ ms.map Prod.fst := fun _ hn => mem_names_ofList.mp hn
  have hperm := ((ofList_nodup ms).subperm hsubset).perm_of_length_le (by simp [h])
  exact hperm.nodup_iff.mp (ofList_nodup ms)

theorem mem_set_iff (h : (ms.map Prod.fst).Nodup) :
    (n, w) ∈ set name v ms ↔ n = name ∧ w = v ∨ n ≠ name ∧ (n, w) ∈ ms := by
  induction ms with
  | nil => simp [set]
  | cons m ms ih =>
    obtain ⟨k, u⟩ := m
    obtain ⟨hk, hms⟩ := List.nodup_cons.mp h
    by_cases heq : k = name
    · subst heq
      have hnew : (k, w) ∉ ms := fun hmem => hk (mem_names hmem)
      rw [set, if_pos rfl, List.mem_cons, List.mem_cons]
      grind
    · rw [set, if_neg heq, List.mem_cons, List.mem_cons, ih hms]
      grind

/-- A name has the last of the values that it was given. -/
theorem mem_ofList_iff :
    (n, w) ∈ ofList ms ↔ ∃ before after, ms = before ++ (n, w) :: after ∧ n ∉ after.map Prod.fst := by
  induction ms using List.reverseRecOn with
  | nil => simp [ofList, update]
  | append_singleton ms m ih =>
    obtain ⟨name, v⟩ := m
    rw [ofList_concat, mem_set_iff (ofList_nodup ms), ih]
    constructor
    · rintro (⟨rfl, rfl⟩ | ⟨hne, before, after, rfl, hafter⟩)
      · exact ⟨ms, [], rfl, List.not_mem_nil⟩
      · exact ⟨before, after ++ [(name, v)], by simp, by simpa [hne] using hafter⟩
    · rintro ⟨before, after, heq, hafter⟩
      rcases List.eq_nil_or_concat after with rfl | ⟨after, m, rfl⟩
      · obtain ⟨-, hlast⟩ := List.append_inj' heq rfl
        cases hlast
        exact .inl ⟨rfl, rfl⟩
      · rw [List.concat_eq_append] at heq hafter
        rw [← List.cons_append, ← List.append_assoc] at heq
        obtain ⟨rfl, hlast⟩ := List.append_inj' heq rfl
        cases hlast
        simp only [List.map_append, List.mem_append, not_or] at hafter
        exact .inr ⟨by simpa using hafter.2, before, after, rfl, hafter.1⟩

/-- A name given once more keeps its place before the others, with the value given last. -/
theorem ofList_cons_of_mem (h : (ms.map Prod.fst).Nodup) (hmem : (name, w) ∈ ms) (v : α) :
    ofList ((name, v) :: ms) = (name, w) :: ms.filter fun m => m.1 ≠ name := by
  obtain ⟨before, after, rfl⟩ := List.append_of_mem hmem
  rw [List.map_append, List.map_cons] at h
  have hnames := List.nodup_middle.mp h
  obtain ⟨hnew, hrest⟩ := List.nodup_cons.mp hnames
  obtain ⟨hbefore, hafter⟩ := not_or.mp (mt List.mem_append.mpr hnew)
  have hothers : ∀ l : List (String × α), name ∉ l.map Prod.fst →
      l.filter (fun m => m.1 ≠ name) = l := by
    intro l hl
    refine List.filter_eq_self.mpr fun m hm => ?_
    have hne : m.1 ≠ name := fun heq => hl (heq ▸ mem_names hm)
    simpa using hne
  have hfront : ∀ u : α, ofList ((name, u) :: before) = (name, u) :: before := fun u =>
    ofList_of_nodup (List.nodup_cons.mpr ⟨hbefore, (List.nodup_append.mp hrest).1⟩)
  calc ofList ((name, v) :: (before ++ (name, w) :: after))
      = ofList ((name, v) :: before ++ [(name, w)] ++ after) := by simp
    _ = update (set name w ((name, v) :: before)) after := by
        rw [ofList_append, ofList_concat, hfront]
    _ = update (ofList ((name, w) :: before)) after := by rw [set, if_pos rfl, hfront]
    _ = (name, w) :: before ++ after := by
        rw [← ofList_append, ofList_of_nodup (by simpa using hnames)]
    _ = (name, w) :: (before ++ (name, w) :: after).filter fun m => m.1 ≠ name := by
        rw [List.filter_append, List.filter_cons_of_neg (by simp), hothers before hbefore,
          hothers after hafter, List.cons_append]

end Members

namespace Value

theorem memberName_str (s : String) : (str s).memberName = s := rfl

theorem memberName_of_none {k : Value} (h : k.string? = .none) : k.memberName = k.toJson.compact := by
  rw [memberName, h]

/-- Keys that name one member. A text names the same as itself and as every key whose
document is written so; other keys have documents of one text. -/
inductive FallTogether : Value → Value → Prop
  | same (s : String) : FallTogether (.str s) (.str s)
  | spells {k : Value} (h : k.string? = .none) : FallTogether (.str k.toJson.compact) k
  | spelled {k : Value} (h : k.string? = .none) : FallTogether k (.str k.toJson.compact)
  | documents {k k' : Value} (h : k.string? = .none) (h' : k'.string? = .none)
      (halike : k.toJson.SpeltAlike k'.toJson) : FallTogether k k'

theorem memberName_eq_iff {k k' : Value} : k.memberName = k'.memberName ↔ FallTogether k k' := by
  constructor
  · intro h
    cases hk : k.string? with
    | some s =>
      obtain rfl := string?_eq_some_iff.mp hk
      rw [memberName_str] at h
      cases hk' : k'.string? with
      | some s' =>
        obtain rfl := string?_eq_some_iff.mp hk'
        rw [memberName_str] at h
        exact h ▸ .same s
      | none =>
        rw [memberName_of_none hk'] at h
        exact h ▸ .spells hk'
    | none =>
      rw [memberName_of_none hk] at h
      cases hk' : k'.string? with
      | some s' =>
        obtain rfl := string?_eq_some_iff.mp hk'
        rw [memberName_str] at h
        exact h ▸ .spelled hk
      | none =>
        rw [memberName_of_none hk'] at h
        exact .documents hk hk' (Json.compact_eq_iff.mp h)
  · intro h
    cases h with
    | same s => rfl
    | spells h => exact (memberName_of_none h).symm
    | spelled h => exact memberName_of_none h
    | documents h h' halike =>
      rw [memberName_of_none h, memberName_of_none h']
      exact Json.compact_eq_iff.mpr halike

inductive Told : Value → Prop
  | none : Told .none
  | bool (b : Bool) : Told (.bool b)
  | int (i : Int64) : Told (.int i)
  | bigInt (i : Int) : Told (.bigInt i)
  | tuple {items : List Value} (h : ∀ v ∈ items, Told v) : Told (.tuple items)

theorem Told.string? {k : Value} (h : k.Told) : k.string? = .none := by
  cases h <;> rfl

theorem Told.equal_self {k : Value} (h : k.Told) : k.equal k = true := by
  have hleaf : ∀ l : Leaf, (∀ x, l ≠ .float x) → (leaf l).equal (leaf l) = true := by
    intro l hl
    have hself : l.equal l = true := by
      cases l with
      | float x => exact absurd rfl (hl x)
      | _ => exact beq_self_eq_true _
    exact equal_iff.mpr ⟨hself, .nil⟩
  induction h with
  | none => exact hleaf _ (by simp)
  | bool b => exact hleaf _ (by simp)
  | int i => exact hleaf _ (by simp)
  | bigInt i => exact hleaf _ (by simp)
  | tuple _ ih => exact equal_iff.mpr ⟨by simp [sameHead], List.forall₂_same.mpr ih⟩

theorem toJson_leaf (l : Leaf) : (leaf l).toJson = l.toJson := by
  rw [toJson]

/-- The text of a 64-bit integer is its decimal. -/
theorem text_ofInt64 (i : Int64) :
    JsonNumber.text (if i < 0 then .negative i else .natural i.toUInt64) = toString i.toInt := by
  by_cases hi : i < 0
  · rw [if_pos hi]
    rfl
  · have hle : 0 ≤ i := Int64.not_lt.mp hi
    have hpos : 0 ≤ i.toInt := Int64.le_iff_toInt_le.mp hle
    have hnat : (i.toUInt64.toNat : Int) = i.toInt := by
      rw [Int64.toNat_toUInt64_of_le hle]
      exact Int.toNat_of_nonneg hpos
    rw [if_neg hi, JsonNumber.text, ← hnat]
    rfl

theorem Told.eq_of_speltAlike {k k' : Value} (h : k.Told) (h' : k'.Told)
    (halike : k.toJson.SpeltAlike k'.toJson) : k = k' := by
  -- off the diagonal the documents have different constructors
  induction h generalizing k' with
  | none =>
    cases h' with
    | none => rfl
    | _ =>
      simp only [toJson_leaf, toJson_sequence, Leaf.toJson, Json.ofInt64] at halike
      cases halike
  | bool b =>
    cases h' with
    | bool c =>
      simp only [toJson_leaf, Leaf.toJson] at halike
      cases halike
      rfl
    | _ =>
      simp only [toJson_leaf, toJson_sequence, Leaf.toJson, Json.ofInt64] at halike
      cases halike
  | int i =>
    cases h' with
    | int j =>
      simp only [toJson_leaf, Leaf.toJson, Json.ofInt64] at halike
      have htext := halike.text_eq
      rw [text_ofInt64, text_ofInt64] at htext
      rw [Int64.toInt_inj.mp (Text.toString_injective htext)]
    | _ =>
      simp only [toJson_leaf, toJson_sequence, Leaf.toJson, Json.ofInt64] at halike
      cases halike
  | bigInt i =>
    cases h' with
    | bigInt j =>
      simp only [toJson_leaf, Leaf.toJson] at halike
      rw [Text.toString_injective halike.string_eq]
    | _ =>
      simp only [toJson_leaf, toJson_sequence, Leaf.toJson, Json.ofInt64] at halike
      cases halike
  | @tuple items _ ih =>
    cases h' with
    | @tuple items' hitems' =>
      simp only [toJson_sequence] at halike
      cases halike with
      | array hlength hitems =>
        refine congrArg Value.tuple (List.ext_getElem (by simpa using hlength) fun i hi hi' => ?_)
        exact ih _ (List.getElem_mem hi) (hitems' _ (List.getElem_mem hi'))
          (hitems i _ _ (by simp [hi]) (by simp [hi']))
    | _ =>
      simp only [toJson_leaf, toJson_sequence, Leaf.toJson, Json.ofInt64] at halike
      cases halike

def KeptApart (entries : List (Value × Value)) : Prop :=
  entries.Pairwise fun e f => ¬FallTogether e.1 f.1

def shownEntry (e : Value × Value) : String × Json := (e.1.memberName, e.2.toJson)

theorem keptApart_iff {entries : List (Value × Value)} :
    KeptApart entries ↔ ((entries.map shownEntry).map Prod.fst).Nodup := by
  rw [KeptApart, List.map_map, List.Nodup, List.pairwise_map]
  refine List.Pairwise.iff fun e f => ?_
  exact not_congr memberName_eq_iff.symm

/-- A dict is shown with the names of its keys, each at its first place, and with the value
of the last entry of that name. -/
theorem toJson_dict_members (entries : List (Value × Value)) :
    ∃ ms, (dict entries).toJson = .object ms ∧
      ms.map Prod.fst = (entries.map fun e => e.1.memberName).eraseDups ∧
      (∀ name w, (name, w) ∈ ms ↔ ∃ before e after, entries = before ++ e :: after ∧
        shownEntry e = (name, w) ∧ ∀ f ∈ after, ¬FallTogether e.1 f.1) ∧
      (ms.length = entries.length ↔ KeptApart entries) ∧
      (KeptApart entries → ms = entries.map shownEntry) := by
  refine ⟨_, toJson_dict entries, ?_, fun name w => ?_, ?_, fun h => ?_⟩
  · rw [Members.names_ofList, List.map_map]
    rfl
  · rw [Members.mem_ofList_iff]
    constructor
    · rintro ⟨before, after, hsplit, hafter⟩
      obtain ⟨front, rest, rfl, -, hrest⟩ := List.map_eq_append_iff.mp hsplit
      obtain ⟨e, back, rfl, he, rfl⟩ := List.map_eq_cons_iff.mp hrest
      refine ⟨front, e, back, rfl, he, fun f hf htogether => hafter ?_⟩
      have hname : e.1.memberName = name := congrArg Prod.fst he
      rw [← hname, memberName_eq_iff.mpr htogether]
      exact List.mem_map_of_mem (List.mem_map_of_mem hf)
    · rintro ⟨before, e, after, rfl, he, hafter⟩
      have hname : e.1.memberName = name := congrArg Prod.fst he
      refine ⟨before.map shownEntry, after.map shownEntry, ?_, fun hmem => ?_⟩
      · rw [← he, ← List.map_cons, ← List.map_append]
        rfl
      · obtain ⟨m, hm, hmname⟩ := List.mem_map.mp hmem
        obtain ⟨f, hf, rfl⟩ := List.mem_map.mp hm
        exact hafter f hf (memberName_eq_iff.mp (hname.trans hmname.symm))
  · rw [keptApart_iff, ← Members.length_ofList_iff, List.length_map]
    rfl
  · exact Members.ofList_of_nodup (keptApart_iff.mp h)

theorem FallTogether.eq_of_told {k k' : Value} (h : FallTogether k k') (hk : k.Told)
    (hk' : k'.Told) : k = k' := by
  have hname := memberName_eq_iff.mpr h
  rw [memberName_of_none hk.string?, memberName_of_none hk'.string?] at hname
  exact hk.eq_of_speltAlike hk' (Json.compact_eq_iff.mp hname)

/-- Unequal keys are shown apart if all are texts, or all are told by their documents. -/
theorem keptApart_of_distinct {entries : List (Value × Value)} (hkeys : DistinctKeys entries)
    (h : (∀ e ∈ entries, ∃ s, e.1 = .str s) ∨ ∀ e ∈ entries, e.1.Told) : KeptApart entries := by
  refine hkeys.imp_of_mem fun {e f} he hf hne htogether => ?_
  rcases h with h | h
  · obtain ⟨s, hs⟩ := h e he
    obtain ⟨s', hs'⟩ := h f hf
    rw [hs, hs'] at htogether hne
    have hname : s = s' := memberName_eq_iff.mpr htogether
    rw [equal_str_eq_true_iff.mpr (congrArg str hname)] at hne
    cases hne
  · rw [htogether.eq_of_told (h e he) (h f hf), (h f hf).equal_self] at hne
    cases hne

section
variable {typeName : String} {body : Body Value}

def shownFields (body : Body Value) : List (String × Json) :=
  Members.mapValues toJson body.fields

theorem names_shownFields (body : Body Value) :
    (shownFields body).map Prod.fst = body.fields.map Prod.fst := by
  rw [shownFields, Members.mapValues, List.map_map]
  rfl

/-- The type of an object and its fields are all shown unless one field is named like the
member for the type. -/
theorem toJson_object_iff (h : body.DistinctNames) :
    (object typeName body).toJson =
        .object ((typeMember, .string typeName) :: shownFields body) ↔
      typeMember ∉ body.fields.map Prod.fst := by
  have hfields : ((shownFields body).map Prod.fst).Nodup := by
    rw [names_shownFields]
    exact h.fields_nodup
  rw [toJson_object, ← names_shownFields]
  constructor
  · intro heq
    have hmembers := Members.ofList_nodup ((typeMember, Json.string typeName) :: shownFields body)
    have hsame : Members.ofList ((typeMember, Json.string typeName) :: shownFields body) =
        (typeMember, .string typeName) :: shownFields body := Json.object.inj heq
    rw [hsame] at hmembers
    exact (List.nodup_cons.mp hmembers).1
  · intro hmem
    exact congrArg Json.object (Members.ofList_of_nodup (List.nodup_cons.mpr ⟨hmem, hfields⟩))

/-- A field of that name is shown in place of the type. -/
theorem toJson_object_of_mem (h : body.DistinctNames) {w : Value}
    (hw : (typeMember, w) ∈ body.fields) :
    (object typeName body).toJson =
      .object ((typeMember, w.toJson) :: (shownFields body).filter fun m => m.1 ≠ typeMember) := by
  have hnames : ((shownFields body).map Prod.fst).Nodup := by
    rw [names_shownFields]
    exact h.fields_nodup
  have hmem : (typeMember, w.toJson) ∈ shownFields body :=
    List.mem_map.mpr ⟨(typeMember, w), hw, rfl⟩
  rw [toJson_object]
  exact congrArg Json.object (Members.ofList_cons_of_mem hnames hmem (.string typeName))

/-- No kind of object with fields of its own has one of that name. -/
theorem attributes_of_typeMember (h : typeMember ∈ body.fields.map Prod.fst) :
    ∃ attributes, body = .attributes attributes := by
  cases body with
  | attributes attributes => exact ⟨attributes, rfl⟩
  | descriptor d =>
    obtain ⟨elementType, align, copy, _ | s⟩ := d <;>
      simp [Body.fields, Descriptor.fields, Descriptor.stateFields, typeMember] at h
  | array a =>
    rw [Body.fields, ArrayBody.fields] at h
    cases hlayout : a.layout <;> simp [hlayout, typeMember] at h
  | tree t => simp [Body.fields, TreeBody.fields, typeMember] at h
  | unresolved => cases h

end

/-- An object is shown with its type and all its fields, unless an attribute is named like
the member for the type, which then stands in its place. -/
def Shown (v : Value) : Prop :=
  ∀ typeName body, v = .object typeName body →
    (v.toJson = .object ((typeMember, .string typeName) :: shownFields body) ↔
      typeMember ∉ body.fields.map Prod.fst) ∧
    ∀ w, (typeMember, w) ∈ body.fields → (∃ attributes, body = .attributes attributes) ∧
      v.toJson = .object
        ((typeMember, w.toJson) :: (shownFields body).filter fun m => m.1 ≠ typeMember)

theorem shown_of_distinctNames {v : Value} (h : v.DistinctNames) : v.Shown := by
  rintro typeName body rfl
  refine ⟨toJson_object_iff h, fun w hw => ⟨?_, toJson_object_of_mem h hw⟩⟩
  exact attributes_of_typeMember (Members.mem_names hw)

end Value

namespace Machine
open Value

/-- What is shown of dicts and of the objects that a load gives, at any depth. A dict has one
member for each entry exactly if no two keys name one member, which unequal keys do not that
are all texts or all told by their documents; else each name has the last value given for
it. An object has its type and one member for each field exactly if no field is named like
the member for the type. -/
theorem rendering_keeps_entries (entries : List (Value × Value)) {data : Bytes} {m : Machine}
    (hm : Reachable data m) (r : Registry) :
    (∃ ms, (dict entries).toJson = .object ms ∧
      ms.map Prod.fst = (entries.map fun e => e.1.memberName).eraseDups ∧
      (∀ name w, (name, w) ∈ ms ↔ ∃ before e after, entries = before ++ e :: after ∧
        shownEntry e = (name, w) ∧ ∀ f ∈ after, ¬FallTogether e.1 f.1) ∧
      (ms.length = entries.length ↔ KeptApart entries) ∧
      (KeptApart entries → ms = entries.map shownEntry)) ∧
    (DistinctKeys entries →
      ((∀ e ∈ entries, ∃ s, e.1 = .str s) ∨ ∀ e ∈ entries, e.1.Told) → KeptApart entries) ∧
    ∀ v, (m.load r).1 = .ok v → v.Throughout Shown := by
  refine ⟨toJson_dict_members entries, fun hkeys h => keptApart_of_distinct hkeys h, fun v h => ?_⟩
  exact (hm.load_distinctNames h).mono fun u hu => shown_of_distinctNames hu

namespace Overlaid

theorem leafDict_fits {entries : List (Value × Value)} (hdistinct : DistinctKeys entries)
    (h : ∀ e ∈ entries, ∃ k l : Leaf, e = (.leaf k, .leaf l) ∧ k.Plain ∧ l.Plain) :
    (dict entries).Plain ∧ (dict entries).nesting ≤ 1 := by
  refine ⟨.dict (fun e he => ?_) (fun e he => ?_) hdistinct, ?_⟩
  · obtain ⟨k, l, rfl, hk, -⟩ := h e he
    exact .leaf hk
  · obtain ⟨k, l, rfl, -, hl⟩ := h e he
    exact .leaf hl
  · apply Value.nesting_le_succ_iff.mpr
    apply forall_mem_entries
    intro e he
    obtain ⟨k, l, rfl, -, -⟩ := h e he
    exact ⟨Nat.le_of_eq (Value.nesting_leaf _), Nat.le_of_eq (Value.nesting_leaf _)⟩

def entries : List (Value × Value) := [(.int 1, .int 10), (.str "1", .int 20)]

theorem distinct_entries : DistinctKeys entries := by
  apply List.pairwise_pair.mpr
  rw [← Bool.not_eq_true, Value.equal_str_eq_true_iff]
  simp

theorem load_entries :
    ((ofBytes ((dict entries).encode ++ [0x2e])).load .standard).1 = .ok (dict entries) := by
  have hfits : (dict entries).Plain ∧ (dict entries).nesting ≤ 1 := by
    have htext : (Leaf.str "1").Plain := show "1".utf8ByteSize < 2 ^ 64 by decide
    refine leafDict_fits distinct_entries (List.forall_mem_cons.mpr ⟨?_, ?_⟩)
    · exact ⟨.int 1, .int 10, rfl, trivial, trivial⟩
    · exact List.forall_mem_singleton.mpr ⟨.str "1", .int 20, rfl, htext, trivial⟩
  obtain ⟨m, hload, -⟩ := (load_encode hfits.1 .standard).1 (Nat.le_trans hfits.2 (by decide))
  exact congrArg Prod.fst hload

theorem shown_entries : (dict entries).toJson = .object [("1", .number (.natural 20))] := by
  have hone : (int 1).memberName = "1" := by
    rw [memberName_of_none rfl, toJson_leaf, Leaf.toJson, Json.ofInt64, Json.compact]
    rfl
  have htwenty : (int 20).toJson = .number (.natural 20) := by
    rw [toJson_leaf]
    rfl
  rw [toJson_dict, entries, List.map_cons, List.map_cons, List.map_nil]
  dsimp only
  rw [hone, htwenty]
  rfl

def state : Value := .dict [(.str "__type__", .int 5)]

def stream : Bytes :=
  buildStream "sklearn.naive_bayes".toList "GaussianNB".toList [] state ++ [0x2e]

def made : Value :=
  .object "sklearn.naive_bayes.GaussianNB" (.attributes [("__type__", .int 5)])

theorem load_made : ((ofBytes stream).load .standard).1 = .ok made := by
  have hmodule : ∀ c ∈ "sklearn.naive_bayes".toList, c.toNat < 256 ∧ c ≠ '\n' := by simp
  have hname : ∀ c ∈ "GaussianNB".toList, c.toNat < 256 ∧ c ≠ '\n' := by simp
  have hcall : Call.run .standard
      (String.ofList ("sklearn.naive_bayes".toList ++ '.' :: "GaussianNB".toList)) [] =
      .ok ⟨.object "sklearn.naive_bayes.GaussianNB" (.attributes []), none⟩ := rfl
  have hfits : state.Plain ∧ state.nesting ≤ 1 := by
    have htext : (Leaf.str "__type__").Plain := show "__type__".utf8ByteSize < 2 ^ 64 by decide
    refine leafDict_fits (List.pairwise_singleton _ _) (List.forall_mem_singleton.mpr ?_)
    exact ⟨.str "__type__", .int 5, rfl, htext, trivial⟩
  exact load_buildStream hmodule hname (by simp) (by simp) hcall hfits.1
    (Nat.lt_of_le_of_lt hfits.2 (by decide)) fun c => rfl

theorem shown_made : made.toJson = .object [("__type__", .number (.natural 5))] := by
  have hfive : (int 5).toJson = .number (.natural 5) := by
    rw [toJson_leaf]
    rfl
  have hnames : Body.DistinctNames (.attributes [("__type__", .int 5)]) := List.nodup_singleton _
  rw [made, toJson_object_of_mem hnames (List.mem_singleton_self _), hfive]
  rfl

def told : List (Value × Value) := [(.int 1, .int 10), (.tuple [.int 1], .int 20)]

theorem distinct_told : DistinctKeys told := by
  apply List.pairwise_pair.mpr
  rw [Value.equal_eq]
  rfl

theorem told_told : ∀ e ∈ told, e.1.Told := by
  have htuple : Told (.tuple [.int 1]) := .tuple (List.forall_mem_singleton.mpr (.int 1))
  exact List.forall_mem_cons.mpr ⟨.int 1, List.forall_mem_singleton.mpr htuple⟩

end Overlaid

/-- Of two entries with unequal keys one is shown, and of an object with its type and a
field only the field. -/
theorem rendering_drops_entry :
    (((ofBytes ((dict Overlaid.entries).encode ++ [0x2e])).load .standard).1 =
        .ok (dict Overlaid.entries) ∧
      DistinctKeys Overlaid.entries ∧ Overlaid.entries.length = 2 ∧
      (dict Overlaid.entries).toJson = .object [("1", .number (.natural 20))]) ∧
    ((ofBytes Overlaid.stream).load .standard).1 = .ok Overlaid.made ∧
      Overlaid.made.toJson = .object [("__type__", .number (.natural 5))] :=
  ⟨⟨Overlaid.load_entries, Overlaid.distinct_entries, rfl, Overlaid.shown_entries⟩,
    Overlaid.load_made, Overlaid.shown_made⟩

/-- A number and a tuple as keys are both shown. -/
theorem rendering_keeps_entries_told :
    (DistinctKeys Overlaid.told ∧ (∀ e ∈ Overlaid.told, e.1.Told) ∧ KeptApart Overlaid.told ∧
      (dict Overlaid.told).toJson = .object (Overlaid.told.map shownEntry)) ∧
    Reachable Overlaid.stream (ofBytes Overlaid.stream) ∧
      ((ofBytes Overlaid.stream).load .standard).1 = .ok Overlaid.made ∧
      Overlaid.made.Throughout Shown := by
  obtain ⟨⟨ms, hms, -, -, -, hwhole⟩, hkept, hobject⟩ := rendering_keeps_entries Overlaid.told
    (Reachable.ofBytes : Reachable Overlaid.stream _) .standard
  have htold := hkept Overlaid.distinct_told (.inr Overlaid.told_told)
  refine ⟨⟨Overlaid.distinct_told, Overlaid.told_told, htold, ?_⟩, .ofBytes, Overlaid.load_made, ?_⟩
  · rw [hms, hwhole htold]
  · exact hobject _ Overlaid.load_made

end Machine

end PickledModel
