import PickledModel.Proofs.Json.Writing

/-! The compact text of a document is parsed. Its tokens stand one right behind the other,
and the tree that they build writes the document. Floats are left out of it: the text of one
is read back by scaling, which need not give the float again. -/

set_option autoImplicit false

namespace PickledModel.Text

theorem head?_toDigits {n : Nat} (h : 0 < n) : (Nat.toDigits 10 n).head? ≠ some '0' := by
  induction n using Nat.strongRecOn with
  | _ n ih =>
    by_cases hn : n < 10
    · have hdigit : ∀ k < 10, 0 < k → Nat.digitChar k ≠ '0' := by decide
      rw [Nat.toDigits_of_lt_base hn, List.head?_cons]
      exact fun heq => hdigit n hn h (Option.some.inj heq)
    · have hsplit := Nat.toDigits_append_toDigits (b := 10) (n := n / 10) (d := n % 10) (by decide)
        (by omega) (Nat.mod_lt n (by decide))
      have hsum : 10 * (n / 10) + n % 10 = n := by omega
      rw [hsum] at hsplit
      rw [← hsplit, List.head?_append_of_ne_nil _ Nat.toDigits_ne_nil]
      exact ih (n / 10) (by omega) (by omega)

theorem exists_toDigits (n : Nat) :
    ∃ c cs, Nat.toDigits 10 n = c :: cs ∧ c.isDigit = true := by
  obtain ⟨c, cs, hcs⟩ := List.exists_cons_of_ne_nil (Nat.toDigits_ne_nil (b := 10) (n := n))
  exact ⟨c, cs, hcs, isDigit_of_mem_toDigits (hcs ▸ List.mem_cons_self)⟩

end PickledModel.Text

namespace PickledModel.Json
open Text

theorem absorb_eq {n : Nat} {ds : List Char}
    (h : ds.foldl (fun n d => 10 * n + digitValue d) n < 2 ^ 64) :
    absorb n ds = (ds.foldl (fun n d => 10 * n + digitValue d) n, []) := by
  induction ds generalizing n with
  | nil => rfl
  | cons d ds ih =>
    have hle := le_foldl_digits (10 * n + digitValue d) ds
    rw [List.foldl_cons] at h ⊢
    rw [absorb]
    exact (if_pos (Nat.lt_of_le_of_lt hle h)).trans (ih h)

def plain (negative : Bool) (n : Nat) : Numeral := ⟨negative, Nat.toDigits 10 n, [], none⟩

theorem number?_plain {negative : Bool} {n : Nat} (h : n < 2 ^ 64) :
    (plain negative n).number? = some (integer negative n) := by
  have hvalue : (Nat.toDigits 10 n).foldl (fun n d => 10 * n + digitValue d) 0 = n :=
    decimalValue_toDigits n
  have habsorb : absorb 0 (Nat.toDigits 10 n) = (n, []) := by
    rw [absorb_eq (by rwa [hvalue]), hvalue]
  simp only [plain, Numeral.number?, habsorb]
  rfl

/-- A number that was read with a sign is below zero. -/
theorem negative_of_number? {num : Numeral} {i : Int64} (h : num.number? = some (.negative i)) :
    i.toInt < 0 := by
  have hinteger : ∀ n, integer num.negative n = .negative i → i.toInt < 0 := by
    intro n hn
    unfold integer at hn
    split at hn
    · cases hn
    · split at hn
      · next hbounds =>
        cases hn
        rw [Int64.toInt_ofInt_of_le (by omega) (by omega)]
        omega
      · cases hn
  have hscaled : ∀ n e, scaled? num.negative n e ≠ some (.negative i) := by
    intro n e hn
    obtain ⟨x, -, hx⟩ := Option.map_eq_some_iff.mp hn
    cases hx
  unfold Numeral.number? at h
  dsimp only at h
  split at h
  · exact hinteger _ (Option.some.inj h)
  · exact absurd h (hscaled _ _)

/-- What follows a number goes on with none of its characters. -/
theorem Ends.head {u : List Char} (hu : Ends u) :
    ∀ c, u.head? = some c → c.isDigit = false ∧ c ∉ ['.', 'e', 'E'] := by
  intro c hc
  have hclosers : ∀ c ∈ closers, c.isDigit = false ∧ c ∉ ['.', 'e', 'E'] := by simp [closers]
  exact hclosers c (hu c hc)

theorem digitRun?_append {ds u : List Char} (hne : ds ≠ []) (hds : ∀ c ∈ ds, c.isDigit = true)
    (hu : Ends u) : digitRun? (ds ++ u) = some (ds, u) := by
  have hrest : u.takeWhile Char.isDigit = [] ∧ u.dropWhile Char.isDigit = u := by
    cases u with
    | nil => exact ⟨rfl, rfl⟩
    | cons c u =>
      have hc := (hu.head c rfl).1
      exact ⟨List.takeWhile_cons_of_neg (by simp [hc]), List.dropWhile_cons_of_neg (by simp [hc])⟩
  rw [digitRun?, List.takeWhile_append_of_pos hds, List.dropWhile_append_of_pos hds, hrest.1,
    hrest.2, List.append_nil]
  exact if_neg (by simpa using hne)

theorem numeral?_plain (negative : Bool) (n : Nat) {u : List Char} (hu : Ends u) :
    numeral? negative (Nat.toDigits 10 n ++ u) = some (plain negative n, u) := by
  have hrun := digitRun?_append (Nat.toDigits_ne_nil (b := 10) (n := n))
    (fun _ => isDigit_of_mem_toDigits) hu
  have hwhole : wholePart? (Nat.toDigits 10 n ++ u) = some (Nat.toDigits 10 n, u) := by
    rw [wholePart?, hrun]
    split
    · next c cs rest heq =>
      have hdigits : Nat.toDigits 10 n = '0' :: c :: cs := congrArg Prod.fst (Option.some.inj heq)
      rcases Nat.eq_zero_or_pos n with rfl | hn
      · cases hdigits
      · exact absurd (congrArg List.head? hdigits) (head?_toDigits hn)
    · rfl
  have hfraction : fractionPart? u = some ([], u) := by
    unfold fractionPart?
    split
    · exact absurd (hu.head '.' rfl).2 (by decide)
    · rfl
  have hexponent : exponentPart? u = some (none, u) := by
    cases u with
    | nil => rfl
    | cons c u =>
      have hc : ¬(c = 'e' ∨ c = 'E') := by
        rintro (rfl | rfl)
        · exact absurd (hu.head 'e' rfl).2 (by decide)
        · exact absurd (hu.head 'E' rfl).2 (by decide)
      rw [exponentPart?.eq_def]
      exact if_neg hc
  rw [numeral?, hwhole]
  dsimp only [Option.bind_eq_bind, Option.bind_some]
  rw [hfraction]
  dsimp only [Option.bind_eq_bind, Option.bind_some]
  rw [hexponent]
  rfl

theorem token?_digit {c : Char} (h : c.isDigit = true) (cs : List Char) :
    token? (c :: cs) = (numeral? false (c :: cs)).map fun (n, cs) => (.number n, cs) := by
  rw [token?]
  all_goals
    rintro cs ⟨⟩
    cases h

theorem token?_plain {n : Nat} {u : List Char} (hu : Ends u) :
    token? (Nat.toDigits 10 n ++ u) = some (.number (plain false n), u) := by
  obtain ⟨c, cs, hcs, hdigit⟩ := exists_toDigits n
  have hnumeral := numeral?_plain false n hu
  rw [hcs, List.cons_append] at hnumeral ⊢
  rw [token?_digit hdigit, hnumeral]
  rfl

theorem token?_minus {n : Nat} {u : List Char} (hu : Ends u) :
    token? ('-' :: Nat.toDigits 10 n ++ u) = some (.number (plain true n), u) := by
  rw [List.cons_append, token?, numeral?_plain true n hu]
  rfl

inductive Lexes : List Char → List Token → List Char → Prop
  | nil (cs : List Char) : Lexes cs [] cs
  | cons {c : Char} {cs rest u : List Char} {t : Token} {ts : List Token}
      (hblank : isBlank c = false) (htoken : token? (c :: cs) = some (t, rest))
      (hlength : rest.length ≤ cs.length) (hrest : Lexes rest ts u) : Lexes (c :: cs) (t :: ts) u

namespace Lexes

variable {cs u v : List Char} {ts us : List Token}

theorem append (h : Lexes cs ts u) (h' : Lexes u us v) : Lexes cs (ts ++ us) v := by
  induction h with
  | nil cs => exact h'
  | cons hblank htoken hlength _ ih => exact .cons hblank htoken hlength (ih h')

theorem go_eq (h : Lexes cs ts []) {fuel : Nat} (hfuel : cs.length ≤ fuel) (done : List Token) :
    tokens?.go fuel cs done = some (done.reverse ++ ts) := by
  generalize hu : ([] : List Char) = u at h
  induction h generalizing fuel done with
  | nil cs =>
    subst hu
    rw [tokens?.go.eq_def]
    simp
  | @cons c cs rest u t ts hblank htoken hlength _ ih =>
    obtain ⟨fuel, rfl⟩ := Nat.exists_eq_succ_of_ne_zero (Nat.ne_zero_of_lt hfuel)
    have hdrop : (c :: cs).dropWhile isBlank = c :: cs :=
      List.dropWhile_cons_of_neg (by simp [hblank])
    rw [tokens?.go.eq_def, hdrop]
    dsimp only
    rw [htoken]
    dsimp only
    rw [ih (Nat.le_trans hlength (Nat.le_of_succ_le_succ hfuel)) _ hu, List.reverse_cons,
      List.append_assoc]
    rfl

end Lexes

def Leads (cs u : List Char) (s : Raw.State) (o : Option Raw.State) : Prop :=
  ∃ ts, Lexes cs ts u ∧ ts.foldlM Raw.step s = o

namespace Leads

variable {cs u v : List Char} {s s' : Raw.State} {o : Option Raw.State}

theorem one {c : Char} {t : Token} (hblank : isBlank c = false)
    (htoken : token? (c :: cs) = some (t, u)) (hlength : u.length ≤ cs.length)
    (hstep : Raw.step s t = o) : Leads (c :: cs) u s o :=
  ⟨[t], .cons hblank htoken hlength (.nil u), by simpa using hstep⟩

theorem trans (h : Leads cs u s (some s')) (h' : Leads u v s' o) : Leads cs v s o := by
  obtain ⟨ts, hts, hs⟩ := h
  obtain ⟨us, hus, ho⟩ := h'
  refine ⟨ts ++ us, hts.append hus, ?_⟩
  rw [List.foldlM_append, hs]
  exact ho

end Leads

/-- A kind of brackets: the frame and the tree of what is between them, and what may follow the
opening one and a comma. -/
structure Brackets (β : Type) where
  frame : List β → Raw.Frame
  tree : List β → Raw
  first : Raw.Expect
  next : Raw.Expect
  closing : Token
  closer : Char
  closer_mem : closer ∈ closers
  closer_token : ∀ u, token? (closer :: u) = some (closing, u)
  closing_ne : closing ≠ .comma
  comma : ∀ done frames, Raw.continue? (frame done :: frames) =
    some (.expecting next (frame done :: frames))
  empty : ∀ frames, Raw.step (.expecting first frames) closing = Raw.close closing frames
  close : ∀ done frames, Raw.close closing (frame done :: frames) =
    Raw.settle (tree done.reverse) frames

def Brackets.array : Brackets Raw where
  frame := .array
  tree := .array
  first := .valueOrClose
  next := .value
  closing := .closeArray
  closer := ']'
  closer_mem := by decide
  closer_token _ := rfl
  closing_ne := by decide
  comma _ _ := rfl
  empty _ := rfl
  close _ _ := rfl

def Brackets.object : Brackets (List StringUnit × Raw) where
  frame := .object
  tree := .object
  first := .nameOrClose
  next := .name
  closing := .closeObject
  closer := '}'
  closer_mem := by decide
  closer_token _ := rfl
  closing_ne := by decide
  comma _ _ := rfl
  empty _ := rfl
  close _ _ := rfl

namespace Brackets

variable {α β : Type} (k : Brackets β) {f : α → List Char} {as : List α} {bs : List β}
  {u : List Char} {frames : List Raw.Frame}

def Adds (cs : List Char) (b : β) : Prop :=
  ∀ (u : List Char) (done : List β) (frames : List Raw.Frame) (e : Raw.Expect), Ends u →
    e = k.first ∨ e = k.next → Leads (cs ++ u) u (.expecting e (k.frame done :: frames))
      (some (.expecting .commaOrClose (k.frame (b :: done) :: frames)))

theorem leads_close {s : Raw.State} {o : Option Raw.State} (h : Raw.step s k.closing = o) :
    Leads (k.closer :: u) u s o := by
  have hblank : isBlank k.closer = false := by
    have hnone : ∀ c ∈ closers, isBlank c = false := by simp [closers, isBlank]
    exact hnone _ k.closer_mem
  exact .one hblank (k.closer_token u) (Nat.le_refl _) h

/-- Entries that each follow a comma are added up to the closing bracket. -/
theorem leads_following (h : List.Forall₂ (fun a b => k.Adds (f a) b) as bs) (done : List β) :
    Leads (following f as ++ k.closer :: u) u (.expecting .commaOrClose (k.frame done :: frames))
      (Raw.settle (k.tree (done.reverse ++ bs)) frames) := by
  induction h generalizing done with
  | nil =>
    apply k.leads_close
    rw [Raw.step, if_neg k.closing_ne, k.close, List.append_nil]
  | @cons a b as bs hab _ ih =>
    have hcomma : Leads (following f (a :: as) ++ k.closer :: u)
        (f a ++ (following f as ++ k.closer :: u))
        (.expecting .commaOrClose (k.frame done :: frames))
        (some (.expecting k.next (k.frame done :: frames))) := by
      rw [following, List.flatMap_cons, List.cons_append, List.cons_append, List.append_assoc]
      exact .one rfl rfl (Nat.le_refl _) (k.comma done frames)
    have hentry := hab (following f as ++ k.closer :: u) done frames _
      (ends_following k.closer_mem as u) (.inr rfl)
    have hrest := ih (b :: done)
    rw [List.reverse_cons, List.append_assoc] at hrest
    exact hcomma.trans (hentry.trans hrest)

theorem leads_joined (h : List.Forall₂ (fun a b => k.Adds (f a) b) as bs) :
    Leads ([','].intercalate (as.map f) ++ k.closer :: u) u
      (.expecting k.first (k.frame [] :: frames)) (Raw.settle (k.tree bs) frames) := by
  cases h with
  | nil => exact k.leads_close ((k.empty _).trans (k.close [] frames))
  | cons hab hs =>
    rw [intercalate_map_cons, List.append_assoc]
    exact (hab _ [] frames _ (ends_following k.closer_mem _ u) (.inl rfl)).trans
      (k.leads_following hs [_])

end Brackets

inductive Floatless : Json → Prop
  | null : Floatless .null
  | bool (b : Bool) : Floatless (.bool b)
  | number {n : JsonNumber} (h : ∀ x, n ≠ .float x) : Floatless (.number n)
  | string (s : String) : Floatless (.string s)
  | array {items : List Json} (h : ∀ x ∈ items, Floatless x) : Floatless (.array items)
  | object {members : List (String × Json)} (h : ∀ m ∈ members, Floatless m.2) :
      Floatless (.object members)

def Builds (cs : List Char) (r : Raw) : Prop :=
  ∀ (u : List Char) (frames : List Raw.Frame) (e : Raw.Expect), Ends u →
    e = .value ∨ e = .valueOrClose → Leads (cs ++ u) u (.expecting e frames) (Raw.settle r frames)

theorem Builds.adds {cs : List Char} {r : Raw} (h : Builds cs r) : Brackets.array.Adds cs r := by
  intro u done frames e hu he
  exact h u (.array done :: frames) e hu he.symm

/-- Where a value may start, a token that does not close an array starts one. -/
theorem step_value {e : Raw.Expect} (he : e = .value ∨ e = .valueOrClose) {t : Token}
    (ht : t ≠ .closeArray) (frames : List Raw.Frame) :
    Raw.step (.expecting e frames) t = Raw.startValue t frames := by
  rcases he with rfl | rfl
  · rfl
  · exact if_neg ht

theorem builds_token {cs : List Char} {t : Token} {r : Raw} (hclose : t ≠ .closeArray)
    (hstart : ∀ frames, Raw.startValue t frames = Raw.settle r frames)
    (hhead : ∃ c cs', cs = c :: cs' ∧ isBlank c = false)
    (htoken : ∀ u, Ends u → token? (cs ++ u) = some (t, u)) : Builds cs r := by
  intro u frames e hu he
  obtain ⟨c, cs, rfl, hblank⟩ := hhead
  refine .one hblank (htoken u hu) (by simp) ?_
  rw [step_value he hclose, hstart]

theorem builds_array {items : List Json} {rs : List Raw}
    (h : List.Forall₂ (fun x r => Builds x.chars r) items rs) :
    Builds (array items).chars (.array rs) := by
  intro u frames e hu he
  have hopen : Leads ((array items).chars ++ u) ([','].intercalate (items.map chars) ++ ']' :: u)
      (.expecting e frames) (some (.expecting .valueOrClose (.array [] :: frames))) := by
    rw [chars_array, List.cons_append, List.append_assoc]
    exact .one rfl rfl (Nat.le_refl _) (step_value he (by decide) frames)
  exact hopen.trans (Brackets.array.leads_joined (h.imp fun _ _ => Builds.adds))

/-- The text of a member adds it to an object. -/
theorem Builds.adds_member {m : String × Json} {r : Raw} (h : Builds m.2.chars r) :
    Brackets.object.Adds (memberChars m) (m.1.toList.map written, r) := by
  intro u done frames e hu he
  have hname : Leads (memberChars m ++ u) (':' :: (m.2.chars ++ u))
      (.expecting e (.object done :: frames))
      (some (.expecting .colon (.member done (m.1.toList.map written) :: frames))) := by
    rw [memberChars, List.append_assoc, List.cons_append]
    have htoken := (token?_quote m.1 (':' :: (m.2.chars ++ u))).1
    rw [toList_quote, List.cons_append] at htoken ⊢
    refine .one rfl htoken (by simp only [List.length_append, List.length_cons]; omega) ?_
    rcases he with rfl | rfl <;> rfl
  have hcolon : Leads (':' :: (m.2.chars ++ u)) (m.2.chars ++ u)
      (.expecting .colon (.member done (m.1.toList.map written) :: frames))
      (some (.expecting .value (.member done (m.1.toList.map written) :: frames))) :=
    .one rfl rfl (Nat.le_refl _) rfl
  exact hname.trans (hcolon.trans (h u _ _ hu (.inl rfl)))

theorem builds_object {members : List (String × Json)} {ms : List (List StringUnit × Raw)}
    (h : List.Forall₂ (fun e m => Brackets.object.Adds (memberChars e) m) members ms) :
    Builds (object members).chars (.object ms) := by
  intro u frames e hu he
  have hopen : Leads ((object members).chars ++ u)
      ([','].intercalate (members.map memberChars) ++ '}' :: u)
      (.expecting e frames) (some (.expecting .nameOrClose (.object [] :: frames))) := by
    rw [chars_object, List.cons_append, List.append_assoc]
    exact .one rfl rfl (Nat.le_refl _) (step_value he (by decide) frames)
  exact hopen.trans (Brackets.object.leads_joined h)

theorem builds_string (s : String) : Builds (string s).chars (.string (s.toList.map written)) := by
  rw [chars_string]
  refine builds_token (t := .string (s.toList.map written)) (by simp) (fun _ => rfl) ?_ ?_
  · exact ⟨_, _, toList_quote s, rfl⟩
  · exact fun u _ => (token?_quote s u).1

theorem builds_plain (n : Nat) : Builds (Nat.toDigits 10 n) (.number (plain false n)) := by
  refine builds_token (t := .number (plain false n)) (by simp) (fun _ => rfl) ?_ ?_
  · obtain ⟨c, cs, hcs, hdigit⟩ := exists_toDigits n
    refine ⟨c, cs, hcs, ?_⟩
    simp only [isBlank, Bool.or_eq_false_iff, decide_eq_false_iff_not]
    refine ⟨⟨⟨?_, ?_⟩, ?_⟩, ?_⟩ <;> rintro rfl <;> cases hdigit
  · exact fun u => token?_plain

theorem builds_minus (n : Nat) : Builds ('-' :: Nat.toDigits 10 n) (.number (plain true n)) := by
  refine builds_token (t := .number (plain true n)) (by simp) (fun _ => rfl) ?_ ?_
  · exact ⟨_, _, rfl, rfl⟩
  · exact fun u => token?_minus

/-- The numeral that an integer of a document is written as. -/
theorem exists_numeral {n : JsonNumber} (hn : ∀ x, n ≠ .float x) {levels : Nat}
    (h : Legible levels (.number n)) :
    ∃ num : Numeral, num.number? = some n ∧ Builds (number n).chars (.number num) := by
  rw [chars_number]
  cases n with
  | natural n =>
    have htext : (JsonNumber.text (.natural n)).toList = Nat.toDigits 10 n.toNat := by
      simp [JsonNumber.text]
    refine ⟨plain false n.toNat, ?_, htext ▸ builds_plain n.toNat⟩
    rw [number?_plain n.toNat_lt]
    simp [integer]
  | negative i =>
    obtain ⟨r, hr⟩ := h
    have hi : i.toInt < 0 := by
      cases hr.reading with
      | number _ hnum => exact negative_of_number? hnum
    have hle := i.le_toInt
    obtain ⟨n, hn⟩ := Int.eq_negSucc_of_lt_zero hi
    have htext : (JsonNumber.text (.negative i)).toList = '-' :: Nat.toDigits 10 (n + 1) := by
      simp [JsonNumber.text, hn, Int.repr_eq_if]
    refine ⟨plain true (n + 1), ?_, htext ▸ builds_minus (n + 1)⟩
    have hvalue : Int64.ofInt (-((n + 1 : Nat) : Int)) = i := by
      change Int64.ofInt (Int.negSucc n) = i
      rw [← hn, Int64.ofInt_toInt]
    rw [number?_plain (by omega), integer, if_neg (by simp), if_pos (by omega), hvalue]
  | float x => exact absurd rfl (hn x)

theorem Floatless.builds {x : Json} (hx : x.Floatless) {levels : Nat} (h : Legible levels x) :
    ∃ r, Writes levels r x ∧ Builds x.chars r := by
  induction hx generalizing levels with
  | null =>
    refine ⟨.null, ⟨.null, reading_iff.mpr (.null levels)⟩, ?_⟩
    rw [chars_null]
    exact builds_token (by decide) (fun _ => rfl) ⟨_, _, rfl, rfl⟩ fun _ _ => rfl
  | bool b =>
    refine ⟨.bool b, .bool levels b, ?_⟩
    rw [chars_bool]
    cases b with
    | false => exact builds_token (by decide) (fun _ => rfl) ⟨_, _, rfl, rfl⟩ fun _ _ => rfl
    | true => exact builds_token (by decide) (fun _ => rfl) ⟨_, _, rfl, rfl⟩ fun _ _ => rfl
  | number hn =>
    obtain ⟨num, hnum, hbuilds⟩ := exists_numeral hn h
    exact ⟨.number num, ⟨.number num, reading_iff.mpr (.number levels hnum)⟩, hbuilds⟩
  | string s => exact ⟨_, .string levels s, builds_string s⟩
  | @array items _ ih =>
    obtain ⟨r, hr⟩ := h
    obtain ⟨l, rs, rfl, rfl, hwrites⟩ := hr.of_array
    have hitem : ∀ x ∈ items, ∃ r, Writes l r x ∧ Builds x.chars r := by
      intro x hx
      obtain ⟨r, -, hw⟩ := forall₂_mem_right hwrites hx
      exact ih x hx ⟨r, hw⟩
    obtain ⟨rs, hrs⟩ := exists_forall₂ hitem
    exact ⟨.array rs, .array (hrs.imp fun _ _ h => h.1),
      builds_array (hrs.imp fun _ _ h => h.2).flip⟩
  | @object members _ ih =>
    obtain ⟨r, hr⟩ := h
    obtain ⟨l, ms, rfl, rfl, hnames, hwrites⟩ := hr.of_object
    have hmember : ∀ e ∈ members, ∃ m : List StringUnit × Raw,
        (text? m.1 = some e.1 ∧ Writes l m.2 e.2) ∧ Brackets.object.Adds (memberChars e) m := by
      intro e he
      obtain ⟨m, -, -, hw⟩ := forall₂_mem_right hwrites he
      obtain ⟨r, hr, hbuilds⟩ := ih e he ⟨m.2, hw⟩
      exact ⟨(e.1.toList.map written, r), ⟨(token?_quote e.1 []).2, hr⟩, hbuilds.adds_member⟩
    obtain ⟨ms, hms⟩ := exists_forall₂ hmember
    exact ⟨.object ms, .object hnames (hms.imp fun _ _ h => h.1),
      builds_object (hms.imp fun _ _ h => h.2).flip⟩

/-- The compact text of a document without floats is parsed, and the tree writes it. -/
theorem Legible.parse?_compact {x : Json} {levels : Nat} (h : Legible levels x)
    (hx : x.Floatless) : ∃ r, Raw.parse? x.compact = some r ∧ Writes levels r x := by
  obtain ⟨r, hr, hbuilds⟩ := hx.builds h
  have hends : Ends [] := by
    rintro c ⟨⟩
  obtain ⟨ts, hts, hsteps⟩ := hbuilds [] [] .value hends (.inl rfl)
  rw [List.append_nil] at hts
  have htokens : tokens? x.chars = some ts := hts.go_eq (Nat.le_refl _) []
  refine ⟨r, ?_, hr⟩
  rw [Raw.parse?]
  change (tokens? x.chars).bind Raw.ofTokens? = some r
  rw [htokens, Option.bind_some, Raw.ofTokens?, hsteps]
  rfl

/-- Such a document is read from its own compact text. -/
theorem parse?_compact {x : Json} (h : Legible maxLevels x) (hx : x.Floatless) :
    parse? x.compact = some x := by
  obtain ⟨r, hr, hwrites⟩ := h.parse?_compact hx
  rw [parse?, hr]
  exact hwrites.read

end PickledModel.Json
