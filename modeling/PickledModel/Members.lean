/-!
# Member lists

Names and their values in order of first mention. Setting a name that is there
already replaces its value and keeps its place.
-/

set_option autoImplicit false

namespace PickledModel.Members

variable {α : Type}

def get? (name : String) (ms : List (String × α)) : Option α :=
  (ms.find? (·.1 == name)).map Prod.snd

def set (name : String) (value : α) : List (String × α) → List (String × α)
  | [] => [(name, value)]
  | (n, v) :: ms => if n = name then (n, value) :: ms else (n, v) :: set name value ms

def update (ms new : List (String × α)) : List (String × α) :=
  new.foldl (fun ms (name, value) => set name value ms) ms

def ofList (ms : List (String × α)) : List (String × α) := update [] ms

theorem mem_keys_set (name n : String) (value : α) (ms : List (String × α)) :
    n ∈ (set name value ms).map Prod.fst ↔ n = name ∨ n ∈ ms.map Prod.fst := by
  induction ms with
  | nil => simp [set]
  | cons m ms ih =>
    obtain ⟨k, v⟩ := m
    by_cases h : k = name
    · subst h
      simp [set]
    · simp only [set, h, if_false, List.map_cons, List.mem_cons, ih]
      constructor
      · rintro (h | h | h) <;> simp [h]
      · rintro (h | h | h) <;> simp [h]

theorem set_nodup (name : String) (value : α) {ms : List (String × α)}
    (h : (ms.map Prod.fst).Nodup) : ((set name value ms).map Prod.fst).Nodup := by
  induction ms with
  | nil => simp [set]
  | cons m ms ih =>
    obtain ⟨k, v⟩ := m
    simp only [List.map_cons, List.nodup_cons] at h
    by_cases hk : k = name
    · subst hk
      simpa [set] using h
    · simp only [set, hk, if_false, List.map_cons, List.nodup_cons]
      refine ⟨fun hm => ?_, ih h.2⟩
      rcases (mem_keys_set name k value ms).mp hm with hm | hm
      · exact hk hm
      · exact h.1 hm

theorem update_nodup {ms : List (String × α)} (h : (ms.map Prod.fst).Nodup)
    (new : List (String × α)) : ((update ms new).map Prod.fst).Nodup := by
  induction new generalizing ms with
  | nil => exact h
  | cons m new ih => exact ih (set_nodup m.1 m.2 h)

theorem ofList_nodup (ms : List (String × α)) : ((ofList ms).map Prod.fst).Nodup :=
  update_nodup (by simp) ms

theorem update_append (ms new more : List (String × α)) :
    update ms (new ++ more) = update (update ms new) more :=
  List.foldl_append

end PickledModel.Members
