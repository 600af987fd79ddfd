import PickledModel.Proofs.Json.NumberTexts
import PickledModel.Proofs.Json.Quoting

/-! The compact text of a document. What is quoted is read back and ends at its own closing
quote, and a number ends where the document around it goes on. So the text tells the
document, but for numbers that have one text. -/

set_option autoImplicit false

namespace PickledModel.Json

inductive SpeltAlike : Json → Json → Prop
  | null : SpeltAlike .null .null
  | bool (b : Bool) : SpeltAlike (.bool b) (.bool b)
  | number {m n : JsonNumber} (h : m.text = n.text) : SpeltAlike (.number m) (.number n)
  | string (s : String) : SpeltAlike (.string s) (.string s)
  | array {items others : List Json} (hlength : items.length = others.length)
      (hitems : ∀ (i : Nat) (x y : Json), items[i]? = some x → others[i]? = some y →
        SpeltAlike x y) :
      SpeltAlike (.array items) (.array others)
  | object {members others : List (String × Json)}
      (hnames : members.map Prod.fst = others.map Prod.fst)
      (hmembers : ∀ (i : Nat) (m n : String × Json), members[i]? = some m → others[i]? = some n →
        SpeltAlike m.2 n.2) :
      SpeltAlike (.object members) (.object others)

theorem SpeltAlike.text_eq {m n : JsonNumber} (h : SpeltAlike (.number m) (.number n)) :
    m.text = n.text := by
  cases h
  assumption

theorem SpeltAlike.string_eq {s t : String} (h : SpeltAlike (.string s) (.string t)) : s = t := by
  cases h
  rfl

section
variable {α : Type} {f : α → List Char} {r : α → α → Prop}

def Ends (u : List Char) : Prop := ∀ c, u.head? = some c → c ∈ closers

/-- A text that ends by itself, whatever may follow, and is that of a related entry only. -/
def Cancels (f : α → List Char) (r : α → α → Prop) (a : α) : Prop :=
  ∀ b u v, Ends u → Ends v → f a ++ u = f b ++ v → r a b ∧ u = v

def Corresponds (r : α → α → Prop) (as bs : List α) : Prop :=
  as.length = bs.length ∧ ∀ (i : Nat) (a b : α), as[i]? = some a → bs[i]? = some b → r a b

theorem Corresponds.cons {a b : α} {as bs : List α} (h : r a b) (hs : Corresponds r as bs) :
    Corresponds r (a :: as) (b :: bs) := by
  refine ⟨congrArg (· + 1) hs.1, ?_⟩
  rintro (_ | i) x y hx hy
  · cases hx
    cases hy
    exact h
  · exact hs.2 i x y hx hy

theorem Corresponds.map_eq {β : Type} {g : α → β} {as bs : List α} (h : Corresponds r as bs)
    (hr : ∀ a b, r a b → g a = g b) : as.map g = bs.map g := by
  apply List.ext_getElem
  · rw [List.length_map, List.length_map, h.1]
  · intro i hi hi'
    rw [List.getElem_map, List.getElem_map]
    exact hr _ _ (h.2 i _ _ (List.getElem?_eq_getElem _) (List.getElem?_eq_getElem _))

def following (f : α → List Char) (as : List α) : List Char := as.flatMap fun a => ',' :: f a

theorem ends_following {closer : Char} (h : closer ∈ closers) (as : List α) (u : List Char) :
    Ends (following f as ++ closer :: u) := by
  cases as with
  | nil =>
    rintro c ⟨⟩
    exact h
  | cons a as =>
    rintro c ⟨⟩
    decide

theorem following_cancel {closer : Char} (hcloser : closer ∈ closers) (hcomma : closer ≠ ',')
    {as : List α} (h : ∀ a ∈ as, Cancels f r a) (bs : List α) {u v : List Char}
    (heq : following f as ++ closer :: u = following f bs ++ closer :: v) :
    Corresponds r as bs ∧ u = v := by
  induction as generalizing bs with
  | nil =>
    cases bs with
    | nil => exact ⟨⟨rfl, by simp⟩, (List.cons.inj heq).2⟩
    | cons b bs => exact absurd (List.cons.inj heq).1 hcomma
  | cons a as ih =>
    cases bs with
    | nil => exact absurd (List.cons.inj heq).1.symm hcomma
    | cons b bs =>
      have hrest : f a ++ (following f as ++ closer :: u) =
          f b ++ (following f bs ++ closer :: v) := by
        simpa [following] using heq
      obtain ⟨hab, htail⟩ := h a List.mem_cons_self b _ _ (ends_following hcloser as u)
        (ends_following hcloser bs v) hrest
      obtain ⟨hs, huv⟩ := ih (fun x hx => h x (List.mem_cons_of_mem a hx)) bs htail
      exact ⟨hs.cons hab, huv⟩

theorem intercalate_map_cons (a : α) (as : List α) :
    [','].intercalate ((a :: as).map f) = f a ++ following f as := by
  induction as generalizing a with
  | nil => simp [following]
  | cons b as ih =>
    have hrest := ih b
    rw [List.map_cons] at hrest
    rw [List.map_cons, List.map_cons, List.intercalate_cons_cons, hrest]
    simp [following]

/-- Entries with commas between them end where a bracket closes. -/
theorem joined_cancel {closer : Char} (hcloser : closer ∈ closers) (hcomma : closer ≠ ',')
    (hhead : ∀ a, ∃ c cs, f a = c :: cs ∧ c ∉ closers) {as : List α}
    (h : ∀ a ∈ as, Cancels f r a) (bs : List α) {u v : List Char}
    (heq : [','].intercalate (as.map f) ++ closer :: u =
      [','].intercalate (bs.map f) ++ closer :: v) :
    Corresponds r as bs ∧ u = v := by
  have hclosed : ∀ (a : α) (as : List α) (u v : List Char),
      closer :: u ≠ [','].intercalate ((a :: as).map f) ++ closer :: v := by
    intro a as u v hclosed
    obtain ⟨c, cs, hc, hne⟩ := hhead a
    rw [intercalate_map_cons, hc] at hclosed
    exact hne ((List.cons.inj hclosed).1 ▸ hcloser)
  cases as with
  | nil =>
    cases bs with
    | nil => exact ⟨⟨rfl, by simp⟩, (List.cons.inj heq).2⟩
    | cons b bs => exact absurd heq (hclosed b bs u v)
  | cons a as =>
    cases bs with
    | nil => exact absurd heq.symm (hclosed a as v u)
    | cons b bs =>
      rw [intercalate_map_cons, intercalate_map_cons, List.append_assoc, List.append_assoc] at heq
      obtain ⟨hab, htail⟩ := h a List.mem_cons_self b _ _ (ends_following hcloser as u)
        (ends_following hcloser bs v) heq
      obtain ⟨hs, huv⟩ := following_cancel hcloser hcomma
        (fun x hx => h x (List.mem_cons_of_mem a hx)) bs htail
      exact ⟨hs.cons hab, huv⟩

end

theorem induction {P : Json → Prop} (null : P .null) (bool : ∀ b, P (.bool b))
    (number : ∀ n, P (.number n)) (string : ∀ s, P (.string s))
    (array : ∀ items : List Json, (∀ x ∈ items, P x) → P (.array items))
    (object : ∀ members : List (String × Json), (∀ m ∈ members, P m.2) → P (.object members)) :
    ∀ x, P x
  | .null => null
  | .bool b => bool b
  | .number n => number n
  | .string s => string s
  | .array items => array items fun x _ => induction null bool number string array object x
  | .object members => object members fun m hm =>
      have : sizeOf m.2 < sizeOf members := sizeOf_lt_of_mem hm
      induction null bool number string array object m.2

def chars (x : Json) : List Char := x.compact.toList

def memberChars (m : String × Json) : List Char := (quote m.1).toList ++ ':' :: m.2.chars

theorem chars_null : chars .null = ['n', 'u', 'l', 'l'] := by
  rw [chars, compact]
  rfl

theorem chars_bool (b : Bool) : (bool b).chars = (if b then "true" else "false").toList := by
  rw [chars, compact]

theorem chars_number (n : JsonNumber) : (number n).chars = n.text.toList := by
  rw [chars, compact]

theorem chars_string (s : String) : (string s).chars = (quote s).toList := by
  rw [chars, compact]

theorem chars_array (items : List Json) :
    (array items).chars = '[' :: ([','].intercalate (items.map chars) ++ [']']) := by
  rw [chars, compact]
  simp only [String.toList_append, String.toList_intercalate, List.map_map]
  rfl

theorem chars_object (members : List (String × Json)) :
    (object members).chars = '{' :: ([','].intercalate (members.map memberChars) ++ ['}']) := by
  have hmember : (String.toList ∘ fun m : String × Json => quote m.1 ++ ":" ++ m.2.compact) =
      memberChars := by
    funext m
    simp [memberChars, chars]
  rw [chars, compact_object]
  simp only [String.toList_append, String.toList_intercalate, List.map_map, hmember]
  rfl

theorem chars_head (x : Json) : ∃ c cs, x.chars = c :: cs ∧ kindOf c = x.kind ∧ c ∉ closers := by
  cases x with
  | null => exact ⟨_, _, chars_null, rfl, by decide⟩
  | bool b =>
    rw [chars_bool]
    cases b
    · exact ⟨'f', ['a', 'l', 's', 'e'], rfl, rfl, by decide⟩
    · exact ⟨'t', ['r', 'u', 'e'], rfl, rfl, by decide⟩
  | number n =>
    obtain ⟨⟨c, cs, hc, hkind⟩, hcloser⟩ := n.text_cases
    exact ⟨c, cs, (chars_number n).trans hc, hkind, hcloser c (hc ▸ List.mem_cons_self)⟩
  | string s => exact ⟨_, _, (chars_string s).trans (toList_quote s), rfl, by decide⟩
  | array items => exact ⟨_, _, chars_array items, rfl, by decide⟩
  | object members => exact ⟨_, _, chars_object members, rfl, by decide⟩

theorem memberChars_head (m : String × Json) : ∃ c cs, memberChars m = c :: cs ∧ c ∉ closers :=
  ⟨_, _, by rw [memberChars, toList_quote, List.cons_append], by decide⟩

theorem kind_eq {x y : Json} {u v : List Char} (h : x.chars ++ u = y.chars ++ v) :
    x.kind = y.kind := by
  obtain ⟨c, cs, hc, hkind, -⟩ := x.chars_head
  obtain ⟨d, ds, hd, hkind', -⟩ := y.chars_head
  rw [hc, hd] at h
  rw [← hkind, ← hkind', (List.cons.inj h).1]

/-- A number ends where a character comes that is none of its own. -/
theorem text_cancel {m n : JsonNumber} {u v : List Char} (hu : Ends u) (hv : Ends v)
    (h : m.text.toList ++ u = n.text.toList ++ v) : m.text = n.text ∧ u = v := by
  have htake : ∀ (n : JsonNumber) (u : List Char), Ends u →
      (n.text.toList ++ u).takeWhile (· ∉ closers) = n.text.toList := by
    intro n u hu
    rw [List.takeWhile_append_of_pos fun c hc => by simpa using n.text_cases.2 c hc]
    cases u with
    | nil => simp
    | cons c u => rw [List.takeWhile_cons_of_neg (by simpa using hu c rfl), List.append_nil]
  have htext : m.text.toList = n.text.toList := by
    rw [← htake m u hu, h, htake n v hv]
  rw [htext] at h
  exact ⟨String.toList_inj.mp htext, List.append_cancel_left h⟩

theorem cancels_member {m : String × Json} (h : Cancels chars SpeltAlike m.2) :
    Cancels memberChars (fun m n => m.1 = n.1 ∧ SpeltAlike m.2 n.2) m := by
  intro n u v hu hv heq
  rw [memberChars, memberChars, List.append_assoc, List.append_assoc] at heq
  obtain ⟨hname, hrest⟩ := quote_append_inj heq
  obtain ⟨hvalue, huv⟩ := h n.2 u v hu hv (List.cons.inj hrest).2
  exact ⟨⟨hname, hvalue⟩, huv⟩

theorem cancels (x : Json) : Cancels chars SpeltAlike x := by
  -- the first character of a text tells the kind, so only like documents are left to compare
  induction x using induction with
  | null =>
    intro y u v _ _ h
    have hkind := kind_eq h
    cases y with
    | null => exact ⟨.null, List.append_cancel_left h⟩
    | _ => cases hkind
  | bool b =>
    intro y u v _ _ h
    have hkind := kind_eq h
    cases y with
    | bool c =>
      have hbool : b = c := by
        rw [chars_bool, chars_bool] at h
        cases b <;> cases c
        · rfl
        · cases (List.cons.inj h).1
        · cases (List.cons.inj h).1
        · rfl
      subst hbool
      exact ⟨.bool b, List.append_cancel_left h⟩
    | _ => cases hkind
  | number m =>
    intro y u v hu hv h
    have hkind := kind_eq h
    cases y with
    | number n =>
      rw [chars_number, chars_number] at h
      obtain ⟨htext, huv⟩ := text_cancel hu hv h
      exact ⟨.number htext, huv⟩
    | _ => cases hkind
  | string s =>
    intro y u v _ _ h
    have hkind := kind_eq h
    cases y with
    | string t =>
      rw [chars_string, chars_string] at h
      obtain ⟨rfl, huv⟩ := quote_append_inj h
      exact ⟨.string s, huv⟩
    | _ => cases hkind
  | array items ih =>
    intro y u v _ _ h
    have hkind := kind_eq h
    cases y with
    | array others =>
      simp only [chars_array, List.cons_append, List.append_assoc, List.nil_append] at h
      have hhead : ∀ x : Json, ∃ c cs, x.chars = c :: cs ∧ c ∉ closers := by
        intro x
        obtain ⟨c, cs, hc, -, hcloser⟩ := x.chars_head
        exact ⟨c, cs, hc, hcloser⟩
      obtain ⟨⟨hlength, hitems⟩, huv⟩ :=
        joined_cancel (by decide) (by decide) hhead ih others (List.cons.inj h).2
      exact ⟨.array hlength hitems, huv⟩
    | _ => cases hkind
  | object members ih =>
    intro y u v _ _ h
    have hkind := kind_eq h
    cases y with
    | object others =>
      simp only [chars_object, List.cons_append, List.append_assoc, List.nil_append] at h
      obtain ⟨hmembers, huv⟩ := joined_cancel (by decide) (by decide) memberChars_head
        (fun m hm => cancels_member (ih m hm)) others (List.cons.inj h).2
      have hnames := hmembers.map_eq (g := Prod.fst) fun _ _ hmn => hmn.1
      exact ⟨.object hnames fun i m n hm hn => (hmembers.2 i m n hm hn).2, huv⟩
    | _ => cases hkind

/-- The compact text of a document tells the document, but for numbers that have one text. -/
theorem compact_eq_iff {x y : Json} : x.compact = y.compact ↔ x.SpeltAlike y := by
  constructor
  · intro h
    have hends : Ends [] := by
      rintro c ⟨⟩
    exact (cancels x y [] [] hends hends (congrArg (·.toList ++ []) h)).1
  · intro h
    induction h with
    | null => rfl
    | bool b => rfl
    | number h => rw [compact, compact, h]
    | string s => rfl
    | @array items others hlength _ ih =>
      have hitems : Corresponds (fun x y : Json => x.compact = y.compact) items others := ⟨hlength, ih⟩
      rw [compact, compact, hitems.map_eq fun _ _ heq => heq]
    | @object members others hnames _ ih =>
      have hmembers : Corresponds (fun m n : String × Json => m.1 = n.1 ∧ m.2.compact = n.2.compact)
          members others := by
        refine ⟨by simpa using congrArg List.length hnames, fun i m n hm hn => ⟨?_, ih i m n hm hn⟩⟩
        have hname := congrArg (·[i]?) hnames
        simpa [hm, hn] using hname
      rw [compact_object, compact_object, hmembers.map_eq]
      rintro ⟨name, v⟩ ⟨name', v'⟩ ⟨rfl, heq⟩
      dsimp only at heq ⊢
      rw [heq]

end PickledModel.Json
