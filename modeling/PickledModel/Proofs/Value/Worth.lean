import PickledModel.Proofs.Value.Footprint
import PickledModel.Proofs.Value.Members

/-! A count of the values in a value in which a global stands for four, the
values that a call of it can add to its arguments. What is read off a value is
worth no more than the value, and so are the parts read off it under different
names together. -/

set_option autoImplicit false

namespace PickledModel.Value

def ownWorth : Value → Nat
  | .global _ => 4
  | _ => 1

def worth (v : Value) : Nat := v.total ownWorth

def worthAll (vs : List Value) : Nat := (vs.map worth).sum

@[simp] theorem worthAll_nil : worthAll [] = 0 := rfl

@[simp] theorem worthAll_cons (v : Value) (vs : List Value) :
    worthAll (v :: vs) = v.worth + worthAll vs := rfl

@[simp] theorem worthAll_append (vs ws : List Value) :
    worthAll (vs ++ ws) = worthAll vs + worthAll ws := by
  simp [worthAll]

theorem worth_eq (v : Value) : v.worth = v.ownWorth + worthAll v.children := total_eq ownWorth v

theorem ownWorth_pos (v : Value) : 1 ≤ v.ownWorth := by
  unfold ownWorth
  split <;> omega

theorem ownWorth_le (v : Value) : v.ownWorth ≤ 4 := by
  unfold ownWorth
  split <;> omega

theorem count_le_worth (v : Value) : v.count ≤ v.worth := total_le_total ownWorth_pos v

theorem worth_of_childless {v : Value} (h : v.children = []) : v.worth ≤ 4 := by
  have := ownWorth_le v
  rw [worth_eq, h, worthAll_nil]
  omega

theorem worthAll_children_lt (v : Value) : worthAll v.children + 1 ≤ v.worth := by
  have := ownWorth_pos v
  rw [worth_eq v]
  omega

theorem worth_pos (v : Value) : 1 ≤ v.worth := by
  have := worthAll_children_lt v
  omega

@[simp] theorem worth_none : none.worth = 1 := worth_eq none

@[simp] theorem worth_global (name : String) : (global name).worth = 4 := worth_eq (global name)

theorem worth_sequence (kind : SequenceKind) (items : List Value) :
    (sequence kind items).worth = 1 + worthAll items := worth_eq (sequence kind items)

theorem worth_object (name : String) (body : Body Value) :
    (object name body).worth = 1 + worthAll body.children := worth_eq (object name body)

def worthEntries (entries : List (Value × Value)) : Nat :=
  (entries.map fun e => e.1.worth + e.2.worth).sum

theorem sum_children_dict (f : Value → Nat) (entries : List (Value × Value)) :
    ((dict entries).children.map f).sum = (entries.map fun e => f e.1 + f e.2).sum := by
  change ((entries.flatMap fun e => [e.1, e.2]).map f).sum = _
  induction entries with
  | nil => rfl
  | cons e entries ih =>
    rw [List.flatMap_cons, List.map_append, List.sum_append, ih]
    simp

theorem worth_dict (entries : List (Value × Value)) :
    (dict entries).worth = 1 + worthEntries entries := by
  rw [worth_eq, worthAll, sum_children_dict]
  rfl

section
variable (f g : Value → Nat)

theorem sum_insertEntry_le (key value : Value) (rows : List (Value × Value)) :
    ((insertEntry key value rows).map fun e => f e.1 + g e.2).sum ≤
      (rows.map fun e => f e.1 + g e.2).sum + (f key + g value) := by
  induction rows with
  | nil => simp [insertEntry]
  | cons row rows ih =>
    rw [insertEntry]
    by_cases hr : row.1.equal key = true
    · rw [if_pos hr]
      simp only [List.map_cons, List.sum_cons]
      omega
    · rw [if_neg hr]
      simp only [List.map_cons, List.sum_cons]
      omega

theorem sum_insertEntries_le (done entries : List (Value × Value)) :
    ((insertEntries done entries).map fun e => f e.1 + g e.2).sum ≤
      (done.map fun e => f e.1 + g e.2).sum + (entries.map fun e => f e.1 + g e.2).sum := by
  induction entries generalizing done with
  | nil => exact Nat.le_refl _
  | cons e entries ih =>
    have hone := sum_insertEntry_le f g e.1 e.2 done
    have hrest := ih (insertEntry e.1 e.2 done)
    change ((insertEntries (insertEntry e.1 e.2 done) entries).map _).sum ≤ _
    rw [List.map_cons, List.sum_cons]
    omega

/-- Entries made distinct lose keys and values, and gain none. -/
theorem sum_distinctEntries_le (entries : List (Value × Value)) :
    ((distinctEntries entries).map fun e => f e.1 + g e.2).sum ≤
      (entries.map fun e => f e.1 + g e.2).sum := by
  have h := sum_insertEntries_le f g [] entries
  rw [distinctEntries_eq_insertEntries]
  simpa using h

theorem sum_distinctItems_le (items : List Value) :
    ((distinctItems items).map f).sum ≤ (items.map f).sum := by
  have h := sum_distinctEntries_le f (fun _ => 0) (items.map (·, none))
  rw [distinctEntries_map_none] at h
  simpa [Function.comp_def] using h

theorem sum_children_normalize_le (v : Value) :
    (v.normalize.children.map f).sum ≤ (v.children.map f).sum := by
  cases v with
  | dict entries =>
    rw [normalize, sum_children_dict, sum_children_dict]
    exact sum_distinctEntries_le f f entries
  | sequence kind items =>
    cases kind with
    | set | frozenSet => exact sum_distinctItems_le f items
    | list | tuple => exact Nat.le_refl _
  | leaf l => exact Nat.le_refl _
  | object name body => exact Nat.le_refl _

variable {f}

/-- A value whose keys are made distinct loses some of the values in it, and gains none. -/
theorem total_normalize_le (hdict : ∀ rows rows', f (dict rows) = f (dict rows'))
    (hsequence : ∀ kind items items', f (sequence kind items) = f (sequence kind items'))
    (v : Value) : v.normalize.total f ≤ v.total f := by
  have hown : f v.normalize = f v := by
    cases v with
    | dict entries => exact hdict _ _
    | sequence kind items => cases kind <;> exact hsequence _ _ _
    | leaf l => rfl
    | object name body => rfl
  have hchildren := sum_children_normalize_le (total f) v
  rw [total_eq, total_eq f v, hown]
  omega

end

theorem worthAll_distinctItems_le (items : List Value) :
    worthAll (distinctItems items) ≤ worthAll items :=
  sum_distinctItems_le worth items

theorem worth_normalize_le (v : Value) : v.normalize.worth ≤ v.worth :=
  total_normalize_le (fun _ _ => rfl) (fun _ _ _ => rfl) v

theorem size_normalize_le (v : Value) : v.normalize.size ≤ v.size :=
  total_normalize_le (fun _ _ => rfl) (fun _ _ _ => rfl) v

theorem worth_of_items? {v : Value} {items : List Value} (h : v.items? = some items) :
    v.worth = 1 + worthAll items := by
  unfold items? at h
  split at h
  · obtain rfl := Option.some.inj h
    exact worth_sequence _ _
  · obtain rfl := Option.some.inj h
    exact worth_sequence _ _
  · cases h

def worthOf? (v : Option Value) : Nat := (v.map worth).getD 0

theorem worth_getD_le (v : Option Value) : (v.getD none).worth ≤ 1 + worthOf? v := by
  cases v with
  | none =>
    rw [Option.getD_none, worth_none]
    exact Nat.le_add_right _ _
  | some w => exact Nat.le_add_left _ _

theorem sum_ite_le {names : List String} (h : names.Nodup) (name : String) (a : Nat)
    (f : String → Nat) :
    (names.map fun n => if name = n then a else f n).sum ≤ a + (names.map f).sum := by
  induction names with
  | nil => exact Nat.zero_le _
  | cons n names ih =>
    obtain ⟨hn, hnames⟩ := List.nodup_cons.mp h
    rw [List.map_cons, List.sum_cons, List.map_cons, List.sum_cons]
    by_cases hname : name = n
    · have hrest : (names.map fun n => if name = n then a else f n) = names.map f := by
        apply List.map_congr_left
        intro m hm
        rw [if_neg]
        rintro rfl
        exact hn (hname ▸ hm)
      rw [hrest, if_pos hname]
      omega
    · have := ih hnames
      rw [if_neg hname]
      omega

/-- Different names are found at different places. -/
theorem sum_members_le {names : List String} (h : names.Nodup) (ms : List (String × Value)) :
    (names.map fun n => worthOf? (Members.get? n ms)).sum ≤ worthAll (ms.map Prod.snd) := by
  induction ms with
  | nil =>
    have hzero : (names.map fun n => worthOf? (Members.get? n [])) = names.map fun _ => 0 := rfl
    rw [hzero, List.map_const', List.sum_replicate_nat, Nat.mul_zero]
    exact Nat.zero_le _
  | cons m ms ih =>
    have hone := sum_ite_le h m.1 m.2.worth fun n => worthOf? (Members.get? n ms)
    have hget : ∀ n, worthOf? (Members.get? n (m :: ms)) =
        if m.1 = n then m.2.worth else worthOf? (Members.get? n ms) := by
      intro n
      by_cases hn : m.1 = n
      · simp [Members.get?, worthOf?, hn]
      · simp [Members.get?, worthOf?, hn]
    simp only [hget]
    rw [List.map_cons, worthAll_cons]
    omega

theorem worthAll_textEntries_le (entries : List (Value × Value)) :
    worthAll ((textEntries entries).map Prod.snd) ≤ worthEntries entries := by
  induction entries with
  | nil => exact Nat.le_refl 0
  | cons e entries ih =>
    rw [textEntries_cons, worthEntries, List.map_cons, List.sum_cons, ← worthEntries]
    cases e.1.string? with
    | none =>
      dsimp only
      omega
    | some name =>
      simp only [List.map_cons, worthAll_cons]
      omega

/-- Parts read off a value under different names are inside it, apart from each other. -/
theorem sum_get?_lt {names : List String} (h : names.Nodup) (v : Value) :
    (names.map fun n => worthOf? (v.get? n)).sum + 1 ≤ v.worth := by
  have hnone : (∀ n, v.get? n = Option.none) →
      (names.map fun n => worthOf? (v.get? n)).sum + 1 ≤ v.worth := by
    intro hget
    have := worthAll_children_lt v
    have hzero : (names.map fun n => worthOf? (v.get? n)) = names.map fun _ => 0 :=
      List.map_congr_left fun n _ => by rw [hget]; rfl
    rw [hzero, List.map_const', List.sum_replicate_nat]
    omega
  cases v with
  | dict entries =>
    have hmembers := sum_members_le h (textEntries entries)
    have htexts := worthAll_textEntries_le entries
    simp only [get?_eq]
    rw [worth_dict]
    omega
  | leaf l => exact hnone fun _ => rfl
  | sequence kind items => exact hnone fun _ => rfl
  | object name body => exact hnone fun _ => rfl

end PickledModel.Value
