import PickledModel.Proofs.Object.Rewriting
import PickledModel.Proofs.Value.Throughout
import PickledModel.Stream.Step

/-! What goes into the uppermost value. A value that takes an addition keeps its kind
and what was in it, and the new parts stand behind. -/

set_option autoImplicit false

namespace PickledModel

variable {α β : Type}

theorem eq_map_of_forall₂ {rel : α → β → Prop} {f : α → β} (hrel : ∀ a b, rel a b → b = f a)
    {as : List α} {bs : List β} (h : List.Forall₂ rel as bs) : bs = as.map f := by
  induction h with
  | nil => rfl
  | cons hab _ ih => rw [hrel _ _ hab, ih, List.map_cons]

namespace Addition

def children : Addition α → List α
  | .toList items | .toSet items => items
  | .toDict entries => entries.flatMap fun (k, v) => [k, v]

def map (f : α → β) : Addition α → Addition β
  | .toList items => .toList (items.map f)
  | .toSet items => .toSet (items.map f)
  | .toDict entries => .toDict (entries.map fun e => (f e.1, f e.2))

inductive Related (rel : α → β → Prop) : Addition α → Addition β → Prop
  | toList {vs : List α} {ws : List β} : List.Forall₂ rel vs ws → Related rel (.toList vs) (.toList ws)
  | toSet {vs : List α} {ws : List β} : List.Forall₂ rel vs ws → Related rel (.toSet vs) (.toSet ws)
  | toDict {es : List (α × α)} {fs : List (β × β)} :
    List.Forall₂ (fun e e' => rel e.1 e'.1 ∧ rel e.2 e'.2) es fs →
    Related rel (.toDict es) (.toDict fs)

theorem Related.eq_map {rel : α → β → Prop} {f : α → β} (hrel : ∀ v w, rel v w → w = f v)
    {a : Addition α} {b : Addition β} (h : a.Related rel b) : b = a.map f := by
  cases h with
  | toList h => exact congrArg Addition.toList (eq_map_of_forall₂ hrel h)
  | toSet h => exact congrArg Addition.toSet (eq_map_of_forall₂ hrel h)
  | toDict h =>
    apply congrArg Addition.toDict
    apply eq_map_of_forall₂ _ h
    exact fun e e' he => Prod.ext (hrel _ _ he.1) (hrel _ _ he.2)

end Addition

namespace Value

inductive Extends : Value → Addition Value → Value → Prop
  | list (present items : List Value) :
    Extends (.list present) (.toList items) (.list (present ++ items))
  | set (present items : List Value) :
    Extends (.set present) (.toSet items) (.set (present ++ items))
  | dict (present entries : List (Value × Value)) :
    Extends (.dict present) (.toDict entries) (.dict (present ++ entries))

theorem extend?_eq_some_iff {v w : Value} {a : Addition Value} :
    v.extend? a = some w ↔ v.Extends a w := by
  constructor
  · intro h
    unfold extend? at h
    split at h
    · cases h
      exact .list _ _
    · cases h
      exact .set _ _
    · cases h
      exact .dict _ _
    · cases h
  · rintro (_ | _ | _) <;> rfl

namespace Extends

variable {v w : Value} {a : Addition Value}

theorem children (h : v.Extends a w) : w.children = v.children ++ a.children := by
  cases h with
  | list | set => rfl
  | dict present entries => exact List.flatMap_append

theorem ordinary (h : v.Extends a w) : w.Ordinary := by
  cases h <;> trivial

theorem nests (h : v.Extends a w) : v.nests = true ∧ w.nests = true := by
  cases h <;> exact ⟨rfl, rfl⟩

theorem rewrite {f : Value → Value} {erased : String → Prop} {good : Value → Prop}
    (hf : Rewriting f erased good) (h : v.Extends a w) : (f v).Extends (a.map f) (f w) := by
  cases h with
  | list present items =>
    rw [hf.sequence, hf.sequence, List.map_append]
    exact .list _ _
  | set present items =>
    rw [hf.sequence, hf.sequence, List.map_append]
    exact .set _ _
  | dict present entries =>
    rw [hf.dict, hf.dict, List.map_append]
    exact .dict _ _

end Extends
end Value

end PickledModel
