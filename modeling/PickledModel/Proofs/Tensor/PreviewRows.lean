import PickledModel.Proofs.Stream.Integers
import PickledModel.Proofs.Tensor.Elements

/-! The rows of a content's text. An array opens and closes on rows of its own, and each
element and each cut has one, as far in as the arrays around it are many. The row of an
integer of one 64-bit type tells the integer and whether more follows. -/

set_option autoImplicit false

namespace PickledModel.Tensor

def Scalar.type : Scalar → ElementType
  | .int32 _ => .int32
  | .int64 _ => .int64
  | .uint32 _ => .uint32
  | .uint64 _ => .uint64
  | .float32 _ => .float32
  | .float64 _ => .float64

def wideIntegers : List ElementType := [.int64, .uint64]

namespace Content

def leaf : Option Scalar → Content
  | some s => .scalar s
  | none => .cut

theorem induction {P : Content → Prop} (leaf : ∀ s, P (leaf s))
    (array : ∀ items : List Content, (∀ c ∈ items, P c) → P (.array items)) : ∀ c, P c
  | .scalar s => leaf (some s)
  | .cut => leaf none
  | .array items => array items fun c _ => induction leaf array c

def Only (t : ElementType) (c : Content) : Prop := ∀ s ∈ c.elements, s.type = t

def Followed (c : Content) (place : List Nat) : Prop :=
  ∃ outer i items, place = outer ++ [i] ∧ c.at? outer = some (.array items) ∧ i + 1 < items.length

theorem only_array_iff {t : ElementType} {items : List Content} :
    (array items).Only t ↔ ∀ c ∈ items, c.Only t := by
  simp only [Only, elements, List.mem_flatMap]
  constructor
  · exact fun h c hc s hs => h s ⟨c, hc, hs⟩
  · rintro h s ⟨c, hc, hs⟩
    exact h c hc s hs

theorem only_leaf_iff {t : ElementType} {shown : Option Scalar} :
    (leaf shown).Only t ↔ ∀ s, shown = some s → s.type = t := by
  cases shown <;> simp [Only, leaf, elements]

end Content

/-- A line of the text of a content: a bracket, or the element or the cut at a place.
A comma follows where another item of the same array does. -/
inductive Row where
  | opening
  | closing (followed : Bool)
  | entry (place : List Nat) (shown : Option Scalar) (followed : Bool)
  deriving DecidableEq, Repr

namespace Row

def comma (followed : Bool) : String := if followed then "," else ""

def indentation (level : Nat) : String := String.ofList (List.replicate (4 * level) ' ')

def shownText (shown : Option Scalar) : String := shown.elim "..." Scalar.text

def text : Row → String
  | .opening => "["
  | .closing followed => "]" ++ comma followed
  | .entry place shown followed => indentation place.length ++ shownText shown ++ comma followed

end Row

namespace Content
open Row

mutual

def rows (place : List Nat) (followed : Bool) : Content → List Row
  | .scalar s => [.entry place (some s) followed]
  | .cut => [.entry place none followed]
  | .array items => .opening :: itemRows place 0 items ++ [.closing followed]

def itemRows (place : List Nat) (i : Nat) : List Content → List Row
  | [] => []
  | c :: items => rows (place ++ [i]) (!items.isEmpty) c ++ itemRows place (i + 1) items

end

theorem rows_leaf (place : List Nat) (followed : Bool) (shown : Option Scalar) :
    rows place followed (leaf shown) = [.entry place shown followed] := by
  cases shown <;> rw [leaf, rows]

theorem rows_ne_nil (place : List Nat) (followed : Bool) (c : Content) :
    rows place followed c ≠ [] := by
  cases c <;> simp [rows]

theorem lines_leaf (indent margin : String) (shown : Option Scalar) :
    lines indent margin (leaf shown) = margin ++ shownText shown := by
  cases shown <;> rw [leaf, lines] <;> rfl

theorem indentation_succ (level : Nat) : indentation level ++ "    " = indentation (level + 1) := by
  apply String.toList_inj.mp
  simp [indentation, Nat.mul_add, List.replicate_add]

/-- Lines that hold of each of the items hold of the array: all but the last one are followed. -/
theorem intercalate_items {place : List Nat} {items : List Content}
    (h : ∀ c ∈ items, ∀ i followed,
      lines "    " (indentation (place.length + 1)) c ++ comma followed =
        "\n".intercalate ((rows (place ++ [i]) followed c).map Row.text)) (i : Nat) :
    ",\n".intercalate (items.map (lines "    " (indentation (place.length + 1)))) =
      "\n".intercalate ((itemRows place i items).map Row.text) := by
  induction items generalizing i with
  | nil => rfl
  | cons c items ih =>
    have hrest := ih (fun d hd => h d (List.mem_cons_of_mem c hd)) (i + 1)
    cases items with
    | nil =>
      have hc := h c List.mem_cons_self i false
      simp [itemRows, ← hc, comma]
    | cons d items =>
      have hc := h c List.mem_cons_self i true
      have hne : (itemRows place (i + 1) (d :: items)).map Row.text ≠ [] := by
        simp [itemRows, rows_ne_nil]
      have hne' : (rows (place ++ [i]) true c).map Row.text ≠ [] := by
        simp [rows_ne_nil]
      have hlines : itemRows place i (c :: d :: items) =
          rows (place ++ [i]) true c ++ itemRows place (i + 1) (d :: items) := by
        rw [itemRows]
        rfl
      rw [hlines, List.map_append, String.intercalate_append_of_ne_nil hne' hne, ← hc, ← hrest,
        List.map_cons, String.intercalate_cons_of_ne_nil (by simp)]
      simp only [comma, if_true, String.append_assoc]
      rfl

/-- The text of a content is its lines, joined by newlines. -/
theorem lines_eq (c : Content) : ∀ place followed,
    lines "    " (indentation place.length) c ++ comma followed =
      "\n".intercalate ((rows place followed c).map Row.text) := by
  induction c using Content.induction with
  | leaf shown =>
    intro place followed
    rw [rows_leaf, lines_leaf]
    simp [Row.text]
  | array items ih =>
    intro place followed
    have hitems := intercalate_items (fun c hc i followed => by
      simpa using ih c hc (place ++ [i]) followed) 0
    rw [lines, indentation_succ, hitems, rows, List.cons_append, List.map_cons,
      String.intercalate_cons_of_ne_nil (by simp), List.map_append]
    cases items with
    | nil =>
      apply String.toList_inj.mp
      simp [itemRows, Row.text]
    | cons c items =>
      have hne : (itemRows place 0 (c :: items)).map Row.text ≠ [] := by
        simp [itemRows, rows_ne_nil]
      rw [String.intercalate_append_of_ne_nil hne (by simp)]
      apply String.toList_inj.mp
      simp [Row.text]

theorem text_eq (c : Content) : c.text = "\n".intercalate ((rows [] false c).map Row.text) := by
  rw [← lines_eq]
  simp [Content.text, indentation, comma]

end Content

def IsShown (c : Char) : Prop := Text.IsDecimal c ∨ c = '.'

theorem IsShown.ne {c d : Char} (h : IsShown c) (hd : d ∈ ['\n', ' ', ',', '[', ']']) : c ≠ d := by
  rintro rfl
  simp only [List.mem_cons, List.not_mem_nil, or_false] at hd
  rcases h with h | rfl
  · rcases hd with rfl | rfl | rfl | rfl | rfl <;> exact absurd h (by unfold Text.IsDecimal; decide)
  · exact absurd hd (by decide)

/-- The integer that an element of a 64-bit type is, in decimal. -/
theorem Scalar.text_of_wide {s : Scalar} (h : s.type ∈ wideIntegers) :
    ∃ i : Int, s.text = toString i ∧ ∀ s', s'.type = s.type → s'.text = toString i → s' = s := by
  cases s with
  | int64 i =>
    refine ⟨i.toInt, rfl, fun s' ht htext => ?_⟩
    cases s' <;> try cases ht
    exact congrArg _ (Int64.toInt_inj.mp (Text.toString_injective htext))
  | uint64 n =>
    refine ⟨n.toNat, rfl, fun s' ht htext => ?_⟩
    cases s' with
    | uint64 m =>
      have hm : toString (m.toNat : Int) = toString (n.toNat : Int) := htext
      exact congrArg _ (UInt64.toNat_inj.mp (Int.ofNat_inj.mp (Text.toString_injective hm)))
    | _ => cases ht
  | int32 | uint32 | float32 | float64 => exact absurd h (by simp [type, wideIntegers])

namespace Row
section
variable {t : ElementType} {shown shown' : Option Scalar} (ht : t ∈ wideIntegers)
include ht

theorem isShown_of_mem {c : Char} (h : ∀ s, shown = some s → s.type = t)
    (hc : c ∈ (shownText shown).toList) : IsShown c := by
  cases shown with
  | none =>
    have hdots : c ∈ ['.', '.', '.'] := hc
    exact .inr (by simpa using hdots)
  | some s =>
    obtain ⟨i, hi, -⟩ := Scalar.text_of_wide (h s rfl ▸ ht)
    have hdecimal : c ∈ (toString i).toList := hi ▸ hc
    exact .inl (Text.isDecimal_of_mem_toString hdecimal)

theorem shownText_injective (h : ∀ s, shown = some s → s.type = t)
    (h' : ∀ s, shown' = some s → s.type = t) (heq : shownText shown = shownText shown') :
    shown = shown' := by
  have hdots : ∀ s : Scalar, s.type = t → "..." ≠ s.text := by
    intro s hs hs'
    obtain ⟨i, hi, -⟩ := Scalar.text_of_wide (hs ▸ ht)
    have hdot : '.' ∈ (toString i).toList := by
      rw [← hi, ← hs']
      decide
    exact absurd (Text.isDecimal_of_mem_toString hdot) (by unfold Text.IsDecimal; decide)
  cases shown with
  | none =>
    cases shown' with
    | none => rfl
    | some s' => exact absurd heq (hdots s' (h' s' rfl))
  | some s =>
    cases shown' with
    | none => exact absurd heq.symm (hdots s (h s rfl))
    | some s' =>
      obtain ⟨i, hi, hinj⟩ := Scalar.text_of_wide (h' s' rfl ▸ ht)
      have htype : s.type = s'.type := (h s rfl).trans (h' s' rfl).symm
      exact congrArg some (hinj s htype (Eq.trans heq hi))

theorem mem_entry_iff (place : List Nat) (followed : Bool) (h : ∀ s, shown = some s → s.type = t)
    {c : Char} (hc : ¬ IsShown c) (hspace : c ≠ ' ') :
    c ∈ (entry place shown followed).text.toList ↔ c = ',' ∧ followed = true := by
  have hshown : c ∉ (shownText shown).toList := fun hmem => hc (isShown_of_mem ht h hmem)
  cases followed <;> simp [text, indentation, comma, hshown, hspace]

/-- Without indentation and comma an entry is what it shows. -/
theorem filter_entry (place : List Nat) (followed : Bool)
    (h : ∀ s, shown = some s → s.type = t) :
    ((entry place shown followed).text.toList.filter fun c => c ≠ ' ' ∧ c ≠ ',') =
      (shownText shown).toList := by
  have hshown : (shownText shown).toList.filter (fun c => c ≠ ' ' ∧ c ≠ ',') =
      (shownText shown).toList := by
    refine List.filter_eq_self.mpr fun c hc => ?_
    have hc' := isShown_of_mem ht h hc
    simpa using ⟨hc'.ne (by simp), hc'.ne (by simp)⟩
  cases followed <;> simpa [text, indentation, comma] using hshown

theorem entry_injective {place place' : List Nat} {followed followed' : Bool}
    (h : ∀ s, shown = some s → s.type = t) (h' : ∀ s, shown' = some s → s.type = t)
    (heq : (entry place shown followed).text = (entry place' shown' followed').text) :
    shown = shown' ∧ followed = followed' := by
  constructor
  · apply shownText_injective ht h h'
    apply String.toList_inj.mp
    rw [← filter_entry ht place followed h, heq, filter_entry ht place' followed' h']
  · have hcomma : ¬ IsShown ',' := fun hc => hc.ne (by simp) rfl
    have hiff := mem_entry_iff ht place followed h hcomma (by decide)
    rw [heq, mem_entry_iff ht place' followed' h' hcomma (by decide)] at hiff
    simpa [eq_comm] using hiff

theorem entry_ne_bracket (place : List Nat) (followed followed' : Bool)
    (h : ∀ s, shown = some s → s.type = t) :
    (entry place shown followed).text ≠ opening.text ∧
      (entry place shown followed).text ≠ (closing followed').text := by
  have hopening : ¬ IsShown '[' := fun hc => hc.ne (by simp) rfl
  have hclosing : ¬ IsShown ']' := fun hc => hc.ne (by simp) rfl
  constructor
  · intro heq
    have hmem := mem_entry_iff ht place followed h hopening (by decide)
    rw [heq] at hmem
    exact absurd (hmem.mp (by decide)).1 (by decide)
  · intro heq
    have hmem := mem_entry_iff ht place followed h hclosing (by decide)
    rw [heq] at hmem
    exact absurd (hmem.mp (by cases followed' <;> decide)).1 (by decide)

end

theorem closing_injective {followed followed' : Bool}
    (h : (closing followed).text = (closing followed').text) : followed = followed' := by
  cases followed <;> cases followed' <;> first | rfl | exact absurd h (by decide)

theorem opening_ne_closing (followed : Bool) : opening.text ≠ (closing followed).text := by
  cases followed <;> decide

end Row

end PickledModel.Tensor
