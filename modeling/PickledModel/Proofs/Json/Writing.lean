import PickledModel.Json.Reader
import PickledModel.Proofs.Process.Following
import PickledModel.Proofs.Value.Rendering

/-! Trees that write a document. Among the trees as written that a document is read from
are those that mention each name of an object once, however their texts and numbers are
spelled. Every document that is read from some tree is written by one of these, within
the same number of levels. -/

set_option autoImplicit false

namespace PickledModel

theorem mapM_eq_some_iff {α β : Type} {f : α → Option β} {xs : List α} {ys : List β} :
    xs.mapM f = some ys ↔ List.Forall₂ (fun x y => f x = some y) xs ys := by
  induction xs generalizing ys with
  | nil => simp [eq_comm]
  | cons x xs ih =>
    rw [List.mapM_cons]
    constructor
    · intro h
      obtain ⟨y, hy, h⟩ := Option.bind_eq_some_iff.mp h
      obtain ⟨ys', hys, h⟩ := Option.bind_eq_some_iff.mp h
      cases h
      exact .cons hy (ih.mp hys)
    · rintro ⟨⟩
      next y ys' hy hys => simp [hy, ih.mpr hys]

/-- Entries chosen one by one make a list. -/
theorem exists_forall₂ {α β : Type} {r : α → β → Prop} {ys : List β}
    (h : ∀ y ∈ ys, ∃ x, r x y) : ∃ xs, List.Forall₂ r xs ys := by
  induction ys with
  | nil => exact ⟨[], .nil⟩
  | cons y ys ih =>
    obtain ⟨⟨x, hx⟩, hys⟩ := List.forall_mem_cons.mp h
    obtain ⟨xs, hxs⟩ := ih hys
    exact ⟨x :: xs, .cons hx hxs⟩

namespace Json

inductive Raw.Single : Raw → Prop
  | null : Single .null
  | bool (b : Bool) : Single (.bool b)
  | number (n : Numeral) : Single (.number n)
  | string (s : List StringUnit) : Single (.string s)
  | array {items : List Raw} (hitems : ∀ r ∈ items, Single r) : Single (.array items)
  | object {ms : List (List StringUnit × Raw)} (hnames : (ms.map fun m => text? m.1).Nodup)
      (hmembers : ∀ m ∈ ms, Single m.2) : Single (.object ms)

/-- The tree stands for the document, within a number of levels, and mentions each name once. -/
structure Writes (levels : Nat) (r : Raw) (j : Json) : Prop where
  single : r.Single
  read : ofRaw? levels r = some j

variable {levels : Nat} {r : Raw}

inductive Reading : Nat → Raw → Json → Prop
  | null (levels : Nat) : Reading levels .null .null
  | bool (levels : Nat) (b : Bool) : Reading levels (.bool b) (.bool b)
  | number (levels : Nat) {n : Numeral} {x : JsonNumber} (h : n.number? = some x) :
      Reading levels (.number n) (.number x)
  | string (levels : Nat) {us : List StringUnit} {s : String} (h : text? us = some s) :
      Reading levels (.string us) (.string s)
  | array {levels : Nat} {items : List Raw} {js : List Json}
      (h : List.Forall₂ (fun r j => ofRaw? levels r = some j) items js) :
      Reading (levels + 1) (.array items) (.array js)
  | object {levels : Nat} {ms : List (List StringUnit × Raw)} {es : List (String × Json)}
      (h : List.Forall₂ (fun m e => text? m.1 = some e.1 ∧ ofRaw? levels m.2 = some e.2) ms es) :
      Reading (levels + 1) (.object ms) (.object (Members.ofList es))

theorem member_eq_some_iff {m : List StringUnit × Raw} {e : String × Json} :
    (do return (← text? m.1, ← ofRaw? levels m.2) : Option (String × Json)) = some e ↔
      text? m.1 = some e.1 ∧ ofRaw? levels m.2 = some e.2 := by
  obtain ⟨us, r⟩ := m
  obtain ⟨name, j⟩ := e
  cases text? us <;> cases ofRaw? levels r <;> simp

theorem reading_iff {j : Json} : ofRaw? levels r = some j ↔ Reading levels r j := by
  constructor
  · intro h
    unfold ofRaw? at h
    split at h
    · cases h
      exact .null _
    · cases h
      exact .bool _ _
    · obtain ⟨x, hx, rfl⟩ := Option.map_eq_some_iff.mp h
      exact .number _ hx
    · obtain ⟨s, hs, rfl⟩ := Option.map_eq_some_iff.mp h
      exact .string _ hs
    · cases h
    · cases h
    · obtain ⟨js, hjs, rfl⟩ := Option.map_eq_some_iff.mp h
      exact .array (mapM_eq_some_iff.mp hjs)
    · obtain ⟨es, hes, rfl⟩ := Option.map_eq_some_iff.mp h
      exact .object ((mapM_eq_some_iff.mp hes).imp fun _ _ => member_eq_some_iff.mp)
  · intro h
    cases h with
    | null | bool => rw [ofRaw?]
    | number _ h => rw [ofRaw?, h, Option.map_some]
    | string _ h => rw [ofRaw?, h, Option.map_some]
    | array h => rw [ofRaw?, mapM_eq_some_iff.mpr h, Option.map_some]
    | object h =>
      have hes := mapM_eq_some_iff.mpr (h.imp fun _ _ => member_eq_some_iff.mpr)
      rw [ofRaw?]
      exact congrArg (Option.map ofMembers) hes

theorem forall₂_names {ms : List (List StringUnit × Raw)} {es : List (String × Json)}
    (h : List.Forall₂ (fun m e => text? m.1 = some e.1 ∧ ofRaw? levels m.2 = some e.2) ms es) :
    (ms.map fun m => text? m.1) = (es.map Prod.fst).map some := by
  induction h with
  | nil => rfl
  | cons hm _ ih => rw [List.map_cons, List.map_cons, List.map_cons, hm.1, ih]

namespace Writes

variable {j : Json}

theorem reading (h : Writes levels r j) : Reading levels r j := reading_iff.mp h.read

theorem bool (levels : Nat) (b : Bool) : Writes levels (.bool b) (.bool b) :=
  ⟨.bool b, reading_iff.mpr (.bool levels b)⟩

theorem string (levels : Nat) (s : String) :
    Writes levels (.string (s.toList.map written)) (.string s) :=
  ⟨.string _, reading_iff.mpr (.string levels (token?_quote s []).2)⟩

theorem array {items : List Raw} {js : List Json} (h : List.Forall₂ (Writes levels) items js) :
    Writes (levels + 1) (.array items) (.array js) := by
  refine ⟨.array fun r hr => ?_, reading_iff.mpr (.array (h.imp fun _ _ hw => hw.read))⟩
  obtain ⟨j, -, hw⟩ := forall₂_mem_right h.flip hr
  exact hw.single

/-- An object is written by members in its own order. -/
theorem object {ms : List (List StringUnit × Raw)} {es : List (String × Json)}
    (hnames : (es.map Prod.fst).Nodup)
    (h : List.Forall₂ (fun m e => text? m.1 = some e.1 ∧ Writes levels m.2 e.2) ms es) :
    Writes (levels + 1) (.object ms) (.object es) := by
  have hread :
      List.Forall₂ (fun m e => text? m.1 = some e.1 ∧ ofRaw? levels m.2 = some e.2) ms es :=
    h.imp fun _ _ hw => ⟨hw.1, hw.2.read⟩
  constructor
  · refine .object ?_ fun m hm => ?_
    · rw [forall₂_names hread]
      exact hnames.map (Option.some_injective _)
    · obtain ⟨e, -, hw⟩ := forall₂_mem_right h.flip hm
      exact hw.2.single
  · have hreading := Reading.object hread
    rw [Members.ofList_of_nodup hnames] at hreading
    exact reading_iff.mpr hreading

theorem eq_null (h : Writes levels .null j) : j = .null := by
  cases h.reading
  rfl

theorem of_bool {b : Bool} (h : Writes levels r (.bool b)) : r = .bool b := by
  cases h.reading
  rfl

theorem of_string {s : String} (h : Writes levels r (.string s)) :
    ∃ us, r = .string us ∧ text? us = some s := by
  cases h.reading with
  | string _ hs => exact ⟨_, rfl, hs⟩

theorem of_array {js : List Json} (h : Writes levels r (.array js)) :
    ∃ l items, levels = l + 1 ∧ r = .array items ∧ List.Forall₂ (Writes l) items js := by
  have hsingle := h.single
  cases h.reading with
  | array hread =>
    cases hsingle with
    | array hitems =>
      exact ⟨_, _, rfl, rfl, ((List.forall₂_and_left _ _).mpr ⟨hitems, hread⟩).imp
        fun _ _ hw => ⟨hw.1, hw.2⟩⟩

/-- The members of a tree that writes an object are those of the object, in order. -/
theorem of_object {es : List (String × Json)} (h : Writes levels r (.object es)) :
    ∃ l ms, levels = l + 1 ∧ r = .object ms ∧ (es.map Prod.fst).Nodup ∧
      List.Forall₂ (fun m e => text? m.1 = some e.1 ∧ Writes l m.2 e.2) ms es := by
  have hsingle := h.single
  cases h.reading with
  | object hread =>
    cases hsingle with
    | object hnames hmembers =>
      rw [forall₂_names hread] at hnames
      rw [Members.ofList_of_nodup hnames.of_map]
      exact ⟨_, _, rfl, rfl, hnames.of_map, ((List.forall₂_and_left _ _).mpr
        ⟨hmembers, hread⟩).imp fun _ _ hw => ⟨hw.2.1, hw.1, hw.2.2⟩⟩

end Writes

def Legible (levels : Nat) (j : Json) : Prop := ∃ r, Writes levels r j

namespace Legible

theorem string (levels : Nat) (s : String) : Legible levels (.string s) := ⟨_, .string levels s⟩

theorem array {js : List Json} (h : ∀ j ∈ js, Legible levels j) :
    Legible (levels + 1) (.array js) := by
  obtain ⟨items, hitems⟩ := exists_forall₂ h
  exact ⟨_, .array hitems⟩

theorem object {es : List (String × Json)} (hnames : (es.map Prod.fst).Nodup)
    (h : ∀ e ∈ es, Legible levels e.2) : Legible (levels + 1) (.object es) := by
  have hmember : ∀ e ∈ es, ∃ m : List StringUnit × Raw,
      text? m.1 = some e.1 ∧ Writes levels m.2 e.2 := by
    intro e he
    obtain ⟨r, hr⟩ := h e he
    exact ⟨(e.1.toList.map written, r), (token?_quote e.1 []).2, hr⟩
  obtain ⟨ms, hms⟩ := exists_forall₂ hmember
  exact ⟨_, .object hnames hms⟩

/-- A document that is read can be written with each name once: of a repeated name its last
value is left. -/
theorem of_read {j : Json} (h : ofRaw? levels r = some j) : Legible levels j := by
  induction levels generalizing r j with
  | zero =>
    cases reading_iff.mp h with
    | null => exact ⟨_, .null, h⟩
    | bool _ b => exact ⟨_, .bool b, h⟩
    | number _ _ => exact ⟨_, .number _, h⟩
    | string _ _ => exact ⟨_, .string _, h⟩
  | succ levels ih =>
    cases reading_iff.mp h with
    | null => exact ⟨_, .null, h⟩
    | bool _ b => exact ⟨_, .bool b, h⟩
    | number _ _ => exact ⟨_, .number _, h⟩
    | string _ _ => exact ⟨_, .string _, h⟩
    | array hitems =>
      refine array fun x hx => ?_
      obtain ⟨r, -, hr⟩ := forall₂_mem_right hitems hx
      exact ih hr
    | @object _ ms es hmembers =>
      refine object (Members.ofList_nodup es) fun e he => ?_
      obtain ⟨before, after, rfl, -⟩ := Members.mem_ofList_iff.mp he
      obtain ⟨m, -, -, hm⟩ :=
        forall₂_mem_right hmembers (List.mem_append_right before List.mem_cons_self)
      exact ih hm

end Legible

end Json

end PickledModel
