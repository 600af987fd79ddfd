import Mathlib.Data.List.Perm.Subperm
import PickledModel.Proofs.Json.Numbers

/-! Documents that agree but for their numbers and the order of their members. A relation
between numbers is lifted to them place by place: it holds at every place, or it holds at
some place of both documents. -/

set_option autoImplicit false

namespace PickledModel

namespace Members

variable {α : Type} {ms : List (String × α)} {name : String} {v : α}

theorem mem_names (h : (name, v) ∈ ms) : name ∈ ms.map Prod.fst :=
  List.mem_map.mpr ⟨(name, v), h, rfl⟩

theorem mem_of_get? (h : get? name ms = some v) : (name, v) ∈ ms := by
  obtain ⟨m, hm, rfl⟩ := Option.map_eq_some_iff.mp h
  have hname : m.1 = name := by simpa using List.find?_some hm
  rw [← hname]
  exact List.mem_of_find?_eq_some hm

theorem get?_of_mem (hms : (ms.map Prod.fst).Nodup) (h : (name, v) ∈ ms) :
    get? name ms = some v := by
  induction ms with
  | nil => cases h
  | cons m ms ih =>
    obtain ⟨hnew, hms⟩ := List.nodup_cons.mp hms
    rw [get?, List.find?_cons]
    rcases List.mem_cons.mp h with rfl | h
    · simp
    · have hne : (m.1 == name) = false := by
        apply beq_false_of_ne
        rintro rfl
        exact hnew (mem_names h)
      rw [hne]
      exact ih hms h

theorem exists_mem_of_name (h : name ∈ ms.map Prod.fst) : ∃ v, (name, v) ∈ ms := by
  obtain ⟨m, hm, rfl⟩ := List.mem_map.mp h
  exact ⟨m.2, hm⟩

end Members

namespace Json

inductive Proper : Json → Prop
  | null : Proper .null
  | bool (b : Bool) : Proper (.bool b)
  | number {n : JsonNumber} (h : n.Proper) : Proper (.number n)
  | string (s : String) : Proper (.string s)
  | array {items : List Json} (hitems : ∀ x ∈ items, Proper x) : Proper (.array items)
  | object {members : List (String × Json)} (hnames : (members.map Prod.fst).Nodup)
      (hmembers : ∀ m ∈ members, Proper m.2) : Proper (.object members)

inductive Alike (r : JsonNumber → JsonNumber → Prop) : Json → Json → Prop
  | null : Alike r .null .null
  | bool (b : Bool) : Alike r (.bool b) (.bool b)
  | number {m n : JsonNumber} (h : r m n) : Alike r (.number m) (.number n)
  | string (s : String) : Alike r (.string s) (.string s)
  | array {items others : List Json} (hlength : items.length = others.length)
      (hitems : ∀ (i : Nat) (x y : Json), items[i]? = some x → others[i]? = some y → Alike r x y) :
      Alike r (.array items) (.array others)
  | object {members others : List (String × Json)}
      (hnames : (members.map Prod.fst).Perm (others.map Prod.fst))
      (hmembers : ∀ (name : String) (x y : Json), (name, x) ∈ members → (name, y) ∈ others →
        Alike r x y) :
      Alike r (.object members) (.object others)

inductive Somewhere (r : JsonNumber → JsonNumber → Prop) : Json → Json → Prop
  | number {m n : JsonNumber} (h : r m n) : Somewhere r (.number m) (.number n)
  | array {items others : List Json} {i : Nat} {x y : Json} (hx : items[i]? = some x)
      (hy : others[i]? = some y) (h : Somewhere r x y) : Somewhere r (.array items) (.array others)
  | object {members others : List (String × Json)} {name : String} {x y : Json}
      (hx : (name, x) ∈ members) (hy : (name, y) ∈ others) (h : Somewhere r x y) :
      Somewhere r (.object members) (.object others)

variable {r s t : JsonNumber → JsonNumber → Prop} {a b c : Json}

theorem Alike.mono (hr : ∀ m n, r m n → s m n) (h : Alike r a b) : Alike s a b := by
  induction h with
  | null => exact .null
  | bool b => exact .bool b
  | number h => exact .number (hr _ _ h)
  | string s => exact .string s
  | array hlength _ ih => exact .array hlength ih
  | object hnames _ ih => exact .object hnames ih

theorem Alike.symm (hr : ∀ m n, r m n → s n m) (h : Alike r a b) : Alike s b a := by
  induction h with
  | null => exact .null
  | bool b => exact .bool b
  | number h => exact .number (hr _ _ h)
  | string s => exact .string s
  | array hlength _ ih => exact .array hlength.symm fun i x y hx hy => ih i y x hy hx
  | object hnames _ ih => exact .object hnames.symm fun name x y hx hy => ih name y x hy hx

theorem Alike.trans (hr : ∀ k m n, r k m → s m n → t k n) (h : Alike r a b) (h' : Alike s b c) :
    Alike t a c := by
  induction h generalizing c with
  | null =>
    cases h'
    exact .null
  | bool b =>
    cases h'
    exact .bool b
  | number h =>
    cases h' with
    | number h' => exact .number (hr _ _ _ h h')
  | string s =>
    cases h'
    exact .string s
  | array hlength _ ih =>
    cases h' with
    | array hlength' hitems' =>
      refine .array (hlength.trans hlength') fun i x z hx hz => ?_
      obtain ⟨hi, -⟩ := List.getElem?_eq_some_iff.mp hx
      have hy := List.getElem?_eq_getElem (hlength ▸ hi)
      exact ih i x _ hx hy (hitems' i _ z hy hz)
  | object hnames _ ih =>
    cases h' with
    | object hnames' hmembers' =>
      refine .object (hnames.trans hnames') fun name x z hx hz => ?_
      obtain ⟨y, hy⟩ := Members.exists_mem_of_name
        (hnames.mem_iff.mp (Members.mem_names hx))
      exact ih name x y hx hy (hmembers' name y z hy hz)

theorem Alike.refl (hr : ∀ m : JsonNumber, m.Proper → r m m) (ha : a.Proper) : Alike r a a := by
  induction ha with
  | null => exact .null
  | bool b => exact .bool b
  | number h => exact .number (hr _ h)
  | string s => exact .string s
  | array _ ih =>
    refine .array rfl fun i x y hx hy => ?_
    obtain rfl : x = y := Option.some.inj (hx.symm.trans hy)
    exact ih x (List.mem_of_getElem? hx)
  | object hnames _ ih =>
    refine .object (.refl _) fun name x y hx hy => ?_
    obtain rfl : x = y := by
      have hsame := (Members.get?_of_mem hnames hx).symm.trans (Members.get?_of_mem hnames hy)
      exact Option.some.inj hsame
    exact ih _ hx

/-- The numbers of documents that are proper are so too. -/
theorem Alike.proper (ha : a.Proper) (hb : b.Proper) (h : Alike r a b) :
    Alike (fun m n => m.Proper ∧ n.Proper ∧ r m n) a b := by
  induction h with
  | null => exact .null
  | bool b => exact .bool b
  | number h =>
    cases ha with
    | number hm =>
      cases hb with
      | number hn => exact .number ⟨hm, hn, h⟩
  | string s => exact .string s
  | array hlength _ ih =>
    cases ha with
    | array ha =>
      cases hb with
      | array hb =>
        refine .array hlength fun i x y hx hy => ?_
        exact ih i x y hx hy (ha x (List.mem_of_getElem? hx)) (hb y (List.mem_of_getElem? hy))
  | object hnames _ ih =>
    cases ha with
    | object _ ha =>
      cases hb with
      | object _ hb => exact .object hnames fun name x y hx hy => ih name x y hx hy (ha _ hx) (hb _ hy)

theorem Somewhere.mono (hr : ∀ m n, r m n → s m n) (h : Somewhere r a b) : Somewhere s a b := by
  induction h with
  | number h => exact .number (hr _ _ h)
  | array hx hy _ ih => exact .array hx hy ih
  | object hx hy _ ih => exact .object hx hy ih

/-- Where one relation holds at every place and another one at some place, they meet there. -/
theorem Somewhere.meets (h : Somewhere s a b) (ha : Alike r a b) : ∃ m n, r m n ∧ s m n := by
  induction h with
  | number h =>
    cases ha with
    | number hr => exact ⟨_, _, hr, h⟩
  | array hx hy _ ih =>
    cases ha with
    | array _ hitems => exact ih (hitems _ _ _ hx hy)
  | object hx hy _ ih =>
    cases ha with
    | object _ hmembers => exact ih (hmembers _ _ _ hx hy)

/-- A relation that does not hold at every place fails at some place. -/
theorem Alike.or_somewhere (h : Alike r a b) :
    Alike s a b ∨ Somewhere (fun m n => r m n ∧ ¬s m n) a b := by
  induction h with
  | null => exact .inl .null
  | bool b => exact .inl (.bool b)
  | @number m n h =>
    by_cases hs : s m n
    · exact .inl (.number hs)
    · exact .inr (.number ⟨h, hs⟩)
  | string s => exact .inl (.string s)
  | @array items others hlength _ ih =>
    by_cases hall : ∀ (i : Nat) (x y : Json), items[i]? = some x → others[i]? = some y → Alike s x y
    · exact .inl (.array hlength hall)
    · push Not at hall
      obtain ⟨i, x, y, hx, hy, hnot⟩ := hall
      exact .inr (.array hx hy ((ih i x y hx hy).resolve_left hnot))
  | @object members others hnames _ ih =>
    by_cases hall : ∀ (name : String) (x y : Json), (name, x) ∈ members → (name, y) ∈ others →
        Alike s x y
    · exact .inl (.object hnames hall)
    · push Not at hall
      obtain ⟨name, x, y, hx, hy, hnot⟩ := hall
      exact .inr (.object hx hy ((ih name x y hx hy).resolve_left hnot))

/-- Distinct names of which each is among as many others are the others in some order. -/
theorem names_perm {members others : List (String × Json)} (hnames : (members.map Prod.fst).Nodup)
    (hlength : members.length = others.length)
    (hfound : ∀ m ∈ members, m.1 ∈ others.map Prod.fst) :
    (members.map Prod.fst).Perm (others.map Prod.fst) := by
  have hsub : members.map Prod.fst ⊆ others.map Prod.fst := by
    intro name hname
    obtain ⟨m, hm, rfl⟩ := List.mem_map.mp hname
    exact hfound m hm
  apply (List.subperm_of_subset hnames hsub).perm_of_length_le
  apply Nat.le_of_eq
  rw [List.length_map, List.length_map, hlength]

theorem equivalent_array_iff {items others : List Json} :
    (Json.array items).equivalent (.array others) = true ↔
      items.length = others.length ∧
        ∀ (i : Nat) (x y : Json), items[i]? = some x → others[i]? = some y →
          x.equivalent y = true := by
  rw [equivalent_array, Bool.and_eq_true, beq_iff_eq, List.all_eq_true]
  apply and_congr_right
  intro hlength
  constructor
  · intro hall i x y hx hy
    exact hall (x, y) (List.mem_of_getElem? (List.getElem?_zip_eq_some.mpr ⟨hx, hy⟩))
  · rintro hall ⟨x, y⟩ hmem
    obtain ⟨i, hi⟩ := List.mem_iff_getElem?.mp hmem
    obtain ⟨hx, hy⟩ := List.getElem?_zip_eq_some.mp hi
    exact hall i x y hx hy

theorem equivalent_object_iff {members others : List (String × Json)}
    (hnames : (members.map Prod.fst).Nodup) (hothers : (others.map Prod.fst).Nodup) :
    (Json.object members).equivalent (.object others) = true ↔
      (members.map Prod.fst).Perm (others.map Prod.fst) ∧
        ∀ (name : String) (x y : Json), (name, x) ∈ members → (name, y) ∈ others →
          x.equivalent y = true := by
  rw [equivalent_object, Bool.and_eq_true, beq_iff_eq, List.all_eq_true]
  constructor
  · rintro ⟨hlength, hall⟩
    refine ⟨names_perm hnames hlength fun m hm => ?_, fun name x y hx hy => ?_⟩
    · have hfound := hall m hm
      dsimp only at hfound
      split at hfound
      · next y hy => exact Members.mem_names (Members.mem_of_get? hy)
      · cases hfound
    · have hfound := hall (name, x) hx
      dsimp only at hfound
      rwa [Members.get?_of_mem hothers hy] at hfound
  · rintro ⟨hperm, hall⟩
    have hlength := hperm.length_eq
    rw [List.length_map, List.length_map] at hlength
    refine ⟨hlength, ?_⟩
    rintro ⟨name, x⟩ hx
    obtain ⟨y, hy⟩ := Members.exists_mem_of_name
      (hperm.mem_iff.mp (Members.mem_names hx))
    dsimp only
    rw [Members.get?_of_mem hothers hy]
    exact hall name x y hx hy

theorem alike_of_equivalent (ha : a.Proper) (hb : b.Proper) (h : a.equivalent b = true) :
    Alike (fun m n => m.equivalent n = true) a b := by
  induction ha generalizing b with
  | null =>
    cases b with
    | null => exact .null
    | _ => simp [equivalent] at h
  | bool x =>
    cases b with
    | bool y =>
      obtain rfl : x = y := by simpa [equivalent] using h
      exact .bool x
    | _ => simp [equivalent] at h
  | number hm =>
    cases b with
    | number n =>
      rw [equivalent] at h
      exact .number h
    | _ => simp [equivalent] at h
  | string x =>
    cases b with
    | string y =>
      obtain rfl : x = y := by simpa [equivalent] using h
      exact .string x
    | _ => simp [equivalent] at h
  | array hitems ih =>
    cases hb with
    | array hothers =>
      obtain ⟨hlength, hall⟩ := equivalent_array_iff.mp h
      refine .array hlength fun i x y hx hy => ?_
      exact ih x (List.mem_of_getElem? hx) (hothers y (List.mem_of_getElem? hy)) (hall i x y hx hy)
    | _ => simp [equivalent] at h
  | object hnames hmembers ih =>
    cases hb with
    | object hnames' hothers =>
      obtain ⟨hperm, hall⟩ := (equivalent_object_iff hnames hnames').mp h
      refine .object hperm fun name x y hx hy => ?_
      exact ih _ hx (hothers _ hy) (hall name x y hx hy)
    | _ => simp [equivalent] at h

theorem equivalent_of_alike (ha : a.Proper) (hb : b.Proper)
    (h : Alike (fun m n => m.equivalent n = true) a b) : a.equivalent b = true := by
  induction h with
  | null => rw [equivalent]
  | bool x => simp [equivalent]
  | number h =>
    rw [equivalent]
    exact h
  | string x => simp [equivalent]
  | array hlength _ ih =>
    cases ha with
    | array hitems =>
      cases hb with
      | array hothers =>
        refine equivalent_array_iff.mpr ⟨hlength, fun i x y hx hy => ?_⟩
        exact ih i x y hx hy (hitems x (List.mem_of_getElem? hx)) (hothers y (List.mem_of_getElem? hy))
  | object hperm _ ih =>
    cases ha with
    | object hnames hmembers =>
      cases hb with
      | object hnames' hothers =>
        refine (equivalent_object_iff hnames hnames').mpr ⟨hperm, fun name x y hx hy => ?_⟩
        exact ih name x y hx hy (hmembers _ hx) (hothers _ hy)

/-- Equivalent documents agree but for the order of members and have equivalent numbers. -/
theorem equivalent_iff_alike (ha : a.Proper) (hb : b.Proper) :
    a.equivalent b = true ↔ Alike (fun m n => m.equivalent n = true) a b :=
  ⟨alike_of_equivalent ha hb, equivalent_of_alike ha hb⟩

end Json

end PickledModel
