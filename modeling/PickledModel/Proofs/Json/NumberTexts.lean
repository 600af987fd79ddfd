import PickledModel.Json.Printer
import PickledModel.Proofs.Stream.Integers

/-! The texts of numbers. A number starts as no other document does, and it has no
character that ends one, so it ends where the document around it goes on. -/

set_option autoImplicit false

namespace PickledModel.Json

def closers : List Char := [',', ']', '}']

def kindOf (c : Char) : Nat :=
  if c = 'n' then 0
  else if c = 't' ∨ c = 'f' then 1
  else if c = '"' then 3
  else if c = '[' then 4
  else if c = '{' then 5
  else 2

def kind : Json → Nat
  | .null => 0
  | .bool _ => 1
  | .number _ => 2
  | .string _ => 3
  | .array _ => 4
  | .object _ => 5

def InNumber (c : Char) : Prop := c.isDigit = true ∨ c ∈ ['-', '+', '.', 'e']

theorem InNumber.kindOf_eq {c : Char} (h : InNumber c) : kindOf c = 2 ∧ c ∉ closers := by
  rcases h with h | h
  · have hne : ∀ d : Char, d.isDigit = false → c ≠ d := by
      rintro d hd rfl
      rw [hd] at h
      cases h
    simp [kindOf, closers, hne 'n' rfl, hne 't' rfl, hne 'f' rfl, hne '"' rfl, hne '[' rfl,
      hne '{' rfl, hne ',' rfl, hne ']' rfl, hne '}' rfl]
  · simp only [List.mem_cons, List.not_mem_nil, or_false] at h
    rcases h with rfl | rfl | rfl | rfl <;> decide

def Numeric (s : String) : Prop := ∀ c ∈ s.toList, InNumber c

theorem Numeric.append {s t : String} (hs : Numeric s) (ht : Numeric t) : Numeric (s ++ t) := by
  intro c hc
  rw [String.toList_append, List.mem_append] at hc
  exact hc.elim (hs c) (ht c)

theorem numeric_ofList {cs : List Char} (h : ∀ c ∈ cs, InNumber c) : Numeric (String.ofList cs) := by
  rwa [Numeric, String.toList_ofList]

theorem numeric_toDigits (n : Nat) : ∀ c ∈ Nat.toDigits 10 n, InNumber c :=
  fun _ hc => .inl (Text.isDigit_of_mem_toDigits hc)

theorem numeric_natural (n : Nat) : Numeric (toString n) := by
  intro c hc
  exact numeric_toDigits n c (by simpa using hc)

theorem numeric_integer (i : Int) : Numeric (toString i) := by
  intro c hc
  cases i with
  | ofNat n => exact numeric_toDigits n c (by simpa [Int.repr_eq_if] using hc)
  | negSucc n =>
    have hsign : c = '-' ∨ c ∈ Nat.toDigits 10 (n + 1) := by simpa [Int.repr_eq_if] using hc
    rcases hsign with rfl | hdigit
    · exact .inr (by decide)
    · exact numeric_toDigits _ c hdigit

theorem integer_ne_empty (i : Int) : (toString i).toList ≠ [] := by
  cases i with
  | ofNat n => simp [Int.repr_eq_if]
  | negSucc n => simp [Int.repr_eq_if]

end PickledModel.Json

namespace PickledModel.NumberText
open Json

variable {digits : List Char}

theorem numeric_zeros (n : Nat) : Numeric (zeros n) := by
  apply numeric_ofList
  intro c hc
  rw [List.eq_of_mem_replicate hc]
  exact .inl rfl

theorem numeric_plain (t : NumberText) (h : ∀ c ∈ digits, InNumber c) (whole : Int) :
    Numeric (t.plain digits whole) := by
  have hpoint : Numeric "." := by simp [Numeric, InNumber]
  unfold plain
  split
  · have hzero : Numeric "0." := by simp [Numeric, InNumber]
    exact (hzero.append (numeric_zeros _)).append (numeric_ofList h)
  · split
    · refine ((numeric_ofList h).append (numeric_zeros _)).append ?_
      split
      · simp [Numeric, InNumber]
      · simp [Numeric]
    · have hfront : Numeric (String.ofList (digits.take whole.toNat)) :=
        numeric_ofList fun c hc => h c (List.mem_of_mem_take hc)
      have hback : Numeric (String.ofList (digits.drop whole.toNat)) :=
        numeric_ofList fun c hc => h c (List.mem_of_mem_drop hc)
      exact (hfront.append hpoint).append hback

theorem numeric_scientific (h : ∀ c ∈ digits, InNumber c) (exponent : Int) :
    Numeric (scientific digits exponent) := by
  have hmark : Numeric "e" := by simp [Numeric, InNumber]
  have hsign : Numeric (if exponent < 0 then "-" else "+") := by
    split <;> simp [Numeric, InNumber]
  have htail : ∀ tail, Numeric tail →
      Numeric (tail ++ "e" ++ (if exponent < 0 then "-" else "+") ++ toString exponent.natAbs) :=
    fun tail ht => ((ht.append hmark).append hsign).append (numeric_natural _)
  match digits, h with
  | [], _ => exact htail "" (by simp [Numeric])
  | [d], h => exact htail (String.singleton d) (by simpa [Numeric] using h)
  | d :: e :: ds, h =>
    refine htail (String.ofList (d :: '.' :: e :: ds)) (numeric_ofList ?_)
    rw [List.forall_mem_cons] at h ⊢
    exact ⟨h.1, List.forall_mem_cons.mpr ⟨.inr (by decide), h.2⟩⟩

theorem numeric_ofDecimal (t : NumberText) (d : Decimal) : Numeric (t.ofDecimal d) := by
  unfold ofDecimal
  split
  · split <;> simp [Numeric, InNumber]
  · dsimp only
    split
    · exact numeric_plain t (numeric_toDigits _) _
    · exact numeric_scientific (numeric_toDigits _) _

theorem numeric_ofDyadic (t : NumberText) (f : BinaryFormat) (negative : Bool) (d : Dyadic) :
    Numeric (t.ofDyadic f negative d) := by
  refine Numeric.append ?_ (numeric_ofDecimal t _)
  split <;> simp [Numeric, InNumber]

end PickledModel.NumberText

namespace PickledModel.NumberText
open Json

theorem ofDecimal_ne_empty {t : NumberText} (ht : t.pointZero = true) (d : Decimal) :
    (t.ofDecimal d).toList ≠ [] := by
  unfold ofDecimal
  rw [ht]
  split
  · simp
  · dsimp only
    split
    · unfold plain
      rw [ht]
      split
      · simp
      · split <;> simp
    · simp [scientific]

end PickledModel.NumberText

namespace PickledModel.JsonNumber
open Json

/-- A number starts as no other document does, and none of its characters ends it. -/
theorem text_cases (n : JsonNumber) :
    (∃ c cs, n.text.toList = c :: cs ∧ kindOf c = 2) ∧ ∀ c ∈ n.text.toList, c ∉ closers := by
  have hnumeric : ∀ s : String, Numeric s → s.toList ≠ [] →
      (∃ c cs, s.toList = c :: cs ∧ kindOf c = 2) ∧ ∀ c ∈ s.toList, c ∉ closers := by
    intro s hs hne
    obtain ⟨c, cs, hcs⟩ := List.exists_cons_of_ne_nil hne
    refine ⟨⟨c, cs, hcs, (hs c ?_).kindOf_eq.1⟩, fun c hc => (hs c hc).kindOf_eq.2⟩
    rw [hcs]
    exact List.mem_cons_self
  cases n with
  | natural n => exact hnumeric (toString n.toNat) (numeric_natural _) (by simp)
  | negative i => exact hnumeric (toString i.toInt) (numeric_integer _) (integer_ne_empty _)
  | float x =>
    rw [text]
    cases x.magnitude with
    | finite d =>
      refine hnumeric _ (NumberText.numeric_ofDyadic _ _ _ _) ?_
      rw [NumberText.ofMagnitude, NumberText.ofDyadic, String.toList_append]
      exact List.append_ne_nil_of_right_ne_nil _ (NumberText.ofDecimal_ne_empty rfl _)
    | infinite =>
      rw [NumberText.ofMagnitude]
      cases x.negative
      · exact ⟨⟨'i', ['n', 'f'], rfl, rfl⟩, by simp [closers]⟩
      · exact ⟨⟨'-', ['i', 'n', 'f'], rfl, rfl⟩, by simp [closers]⟩
    | nan =>
      rw [NumberText.ofMagnitude]
      exact ⟨⟨'N', ['a', 'N'], rfl, rfl⟩, by simp [closers]⟩

end PickledModel.JsonNumber
