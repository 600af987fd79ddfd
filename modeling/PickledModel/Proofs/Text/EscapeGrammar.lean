import Mathlib.Data.List.Basic
import Mathlib.Data.List.Induction
import PickledModel.Text.Escape

/-! The grammar of escaped text. A quoted byte string is a row of bytes and escapes
between two quotes, and Latin-1 text a row of bytes and code points. The readers accept
what these grammars derive, with one difference: where the digits of a hexadecimal escape
are due they also take a plus sign and one digit less. -/

set_option autoImplicit false

namespace PickledModel.Text

inductive Positional (base : Nat) (digit : UInt8 → Nat → Prop) : Bytes → Nat → Prop
  | nil : Positional base digit [] 0
  | snoc {ds : Bytes} {b : UInt8} {n d : Nat} (hds : Positional base digit ds n)
      (hb : digit b d) : Positional base digit (ds ++ [b]) (base * n + d)

def OctalDigit (b : UInt8) (d : Nat) : Prop := b.toNat = 0x30 + d ∧ d < 8

def HexDigit (b : UInt8) (d : Nat) : Prop :=
  (b.toNat = 0x30 + d ∧ d < 10) ∨
    ((b.toNat + 10 = 0x61 + d ∨ b.toNat + 10 = 0x41 + d) ∧ 10 ≤ d ∧ d < 16)

abbrev OctalNumber : Bytes → Nat → Prop := Positional 8 OctalDigit

abbrev HexNumber : Bytes → Nat → Prop := Positional 16 HexDigit

def SignedHexNumber (ds : Bytes) (n : Nat) : Prop :=
  HexNumber ds n ∨ ∃ rest, ds = 0x2b :: rest ∧ HexNumber rest n

def letters : List (UInt8 × UInt8) :=
  [(0x61, 0x07), (0x62, 0x08), (0x66, 0x0c), (0x6e, 0x0a), (0x72, 0x0d), (0x74, 0x09),
    (0x76, 0x0b)]

def HasMeaning (b : UInt8) : Prop :=
  b = 0x0a ∨ b ∈ [0x5c, 0x27, 0x22] ∨ b ∈ letters.map Prod.fst ∨ b = 0x78 ∨ ∃ d, OctalDigit b d

section
variable (number : Bytes → Nat → Prop)

/-- What stands after a backslash in a quoted byte string, and the bytes it stands for. -/
inductive Escape : Bytes → Bytes → Prop
  | newline : Escape [0x0a] []
  | quote {b : UInt8} (hb : b ∈ [0x5c, 0x27, 0x22]) : Escape [b] [b]
  | letter {b c : UInt8} (hb : (b, c) ∈ letters) : Escape [b] [c]
  | hex {ds : Bytes} {n : Nat} (hlength : ds.length = 2) (hds : number ds n) :
      Escape (0x78 :: ds) [UInt8.ofNat n]
  | octal {ds : Bytes} {n : Nat} (hpos : 0 < ds.length) (hlength : ds.length ≤ 3)
      (hds : OctalNumber ds n) : Escape ds [UInt8.ofNat n]
  | unknown {b : UInt8} (hb : ¬HasMeaning b) : Escape [b] [0x5c, b]

/-- An octal escape goes on as long as there are digits, up to three. -/
def Ends (e rest : Bytes) : Prop :=
  (∃ n, OctalNumber e n) → e.length < 3 → ∀ b ∈ rest.head?, ∀ d, ¬OctalDigit b d

inductive Unescaped : Bytes → Bytes → Prop
  | nil : Unescaped [] []
  | plain {b : UInt8} {bs out : Bytes} (hb : b ≠ 0x5c) (hbs : Unescaped bs out) :
      Unescaped (b :: bs) (b :: out)
  | escape {e found bs out : Bytes} (he : Escape number e found) (hends : Ends e bs)
      (hbs : Unescaped bs out) : Unescaped (0x5c :: (e ++ bs)) (found ++ out)

inductive Quoted : Bytes → Bytes → Prop
  | mk {q : UInt8} {body out : Bytes} (hq : q = 0x27 ∨ q = 0x22)
      (hbody : Unescaped number body out) : Quoted (q :: (body ++ [q])) out

def codeWidths : List (UInt8 × Nat) := [(0x75, 4), (0x55, 8)]

inductive RawText : Bytes → List Char → Prop
  | nil : RawText [] []
  | plain {b : UInt8} {c : Char} {bs : Bytes} {cs : List Char}
      (hb : b = 0x5c → ∀ x ∈ bs.head?, x ∉ codeWidths.map Prod.fst) (hc : c.toNat = b.toNat)
      (hbs : RawText bs cs) : RawText (b :: bs) (c :: cs)
  | code {mark : UInt8} {ds : Bytes} {c : Char} {bs : Bytes} {cs : List Char}
      (hmark : (mark, ds.length) ∈ codeWidths) (hds : number ds c.toNat) (hbs : RawText bs cs) :
      RawText (0x5c :: mark :: (ds ++ bs)) (c :: cs)

end

section
variable {strict lenient : Bytes → Nat → Prop}

theorem Escape.mono (h : ∀ ds n, strict ds n → lenient ds n) {e found : Bytes}
    (he : Escape strict e found) : Escape lenient e found := by
  cases he with
  | newline => exact .newline
  | quote hb => exact .quote hb
  | letter hb => exact .letter hb
  | hex hlength hds => exact .hex hlength (h _ _ hds)
  | octal hpos hlength hds => exact .octal hpos hlength hds
  | unknown hb => exact .unknown hb

theorem Unescaped.mono (h : ∀ ds n, strict ds n → lenient ds n) {bs out : Bytes}
    (hbs : Unescaped strict bs out) : Unescaped lenient bs out := by
  induction hbs with
  | nil => exact .nil
  | plain hb _ ih => exact .plain hb ih
  | escape he hends _ ih => exact .escape (he.mono h) hends ih

theorem Quoted.mono (h : ∀ ds n, strict ds n → lenient ds n) {line out : Bytes}
    (hline : Quoted strict line out) : Quoted lenient line out := by
  obtain ⟨hq, hbody⟩ := hline
  exact .mk hq (hbody.mono h)

theorem RawText.mono (h : ∀ ds n, strict ds n → lenient ds n) {bs : Bytes} {cs : List Char}
    (hbs : RawText strict bs cs) : RawText lenient bs cs := by
  induction hbs with
  | nil => exact .nil
  | plain hb hc _ ih => exact .plain hb hc ih
  | code hmark hds _ ih => exact .code hmark (h _ _ hds) ih

end

theorem SignedHexNumber.of_hexNumber (ds : Bytes) (n : Nat) (h : HexNumber ds n) :
    SignedHexNumber ds n := .inl h

theorem hexDigit?_eq_some_iff {b : UInt8} {d : Nat} : hexDigit? b = some d ↔ HexDigit b d := by
  unfold hexDigit? HexDigit
  dsimp only
  split_ifs with h₁ h₂ h₃
  · rw [Option.some.injEq]
    omega
  · rw [Option.some.injEq]
    omega
  · rw [Option.some.injEq]
    omega
  · simp only [false_iff]
    omega

theorem hexDigits?_append (m : Nat) (ds es : Bytes) :
    hexDigits? m (ds ++ es) = (hexDigits? m ds).bind fun n => hexDigits? n es := by
  induction ds generalizing m with
  | nil => rfl
  | cons b ds ih =>
    rw [List.cons_append, hexDigits?, hexDigits?]
    cases hexDigit? b with
    | none => rfl
    | some d => exact ih _

theorem hexDigits?_eq_some_iff {ds : Bytes} {n : Nat} :
    hexDigits? 0 ds = some n ↔ HexNumber ds n := by
  constructor
  · intro h
    induction ds using List.reverseRecOn generalizing n with
    | nil =>
      obtain rfl := Option.some.inj h
      exact .nil
    | append_singleton ds b ih =>
      rw [hexDigits?_append] at h
      obtain ⟨m, hm, h⟩ := Option.bind_eq_some_iff.mp h
      obtain ⟨d, hd, h⟩ := Option.bind_eq_some_iff.mp h
      obtain rfl := Option.some.inj h
      exact .snoc (ih hm) (hexDigit?_eq_some_iff.mp hd)
  · intro h
    induction h with
    | nil => rfl
    | snoc hds hb ih =>
      rw [hexDigits?_append, ih, Option.bind_some, hexDigits?, hexDigit?_eq_some_iff.mpr hb]
      rfl

theorem Positional.digit {base n : Nat} {digit : UInt8 → Nat → Prop} {ds : Bytes}
    (h : Positional base digit ds n) : ∀ b ∈ ds, ∃ d, digit b d := by
  induction h with
  | nil => simp
  | snoc hds hb ih =>
    intro b hmem
    rcases List.mem_append.mp hmem with hmem | hmem
    · exact ih b hmem
    · exact ⟨_, List.mem_singleton.mp hmem ▸ hb⟩

theorem not_hexDigit {b : UInt8} (hb : hexDigit? b = none) (d : Nat) : ¬HexDigit b d := by
  rw [← hexDigit?_eq_some_iff, hb]
  nofun

/-- The reader of digits takes a plus sign before them. -/
theorem hexadecimal?_eq_some_iff {ds : Bytes} {n : Nat} (h : 2 ≤ ds.length) :
    hexadecimal? ds = some n ↔ SignedHexNumber ds n := by
  obtain ⟨b, ds, rfl⟩ := List.exists_cons_of_length_pos (Nat.zero_lt_of_lt h)
  obtain ⟨c, ds, rfl⟩ := List.exists_cons_of_length_pos (Nat.lt_of_succ_lt_succ h)
  change hexDigits? 0 (if b = 0x2b then c :: ds else b :: c :: ds) = some n ↔ _
  by_cases hb : b = 0x2b
  · subst hb
    rw [if_pos rfl, hexDigits?_eq_some_iff]
    constructor
    · intro hds
      exact .inr ⟨_, rfl, hds⟩
    · rintro (hds | ⟨rest, heq, hrest⟩)
      · obtain ⟨d, hd⟩ := hds.digit 0x2b List.mem_cons_self
        exact absurd hd (not_hexDigit rfl d)
      · cases heq
        exact hrest
  · rw [if_neg hb, hexDigits?_eq_some_iff]
    constructor
    · exact .inl
    · rintro (hds | ⟨rest, heq, -⟩)
      · exact hds
      · cases heq
        exact absurd rfl hb

theorem isOctal_iff {b : UInt8} : isOctal b = true ↔ ∃ d, OctalDigit b d := by
  simp only [isOctal, OctalDigit, Bool.and_eq_true, decide_eq_true_eq, UInt8.le_iff_toNat_le]
  constructor
  · rintro ⟨hlow, hhigh⟩
    refine ⟨b.toNat - 0x30, ?_⟩
    simp at hlow hhigh
    omega
  · rintro ⟨d, hb, hd⟩
    simp
    omega

theorem octalNumber_iff {ds : Bytes} {n : Nat} :
    OctalNumber ds n ↔ (∀ b ∈ ds, isOctal b = true) ∧
      n = ds.foldl (fun n d => 8 * n + (d.toNat - 0x30)) 0 := by
  constructor
  · intro h
    refine ⟨fun b hb => isOctal_iff.mpr (h.digit b hb), ?_⟩
    induction h with
    | nil => rfl
    | @snoc ds b n d hds hb ih =>
      have hd : b.toNat - 0x30 = d := by
        rw [hb.1, Nat.add_sub_cancel_left]
      rw [List.foldl_append, ← ih, List.foldl_cons, List.foldl_nil, hd]
  · rintro ⟨hall, rfl⟩
    induction ds using List.reverseRecOn with
    | nil => exact .nil
    | append_singleton ds b ih =>
      rw [List.forall_mem_append, List.forall_mem_singleton] at hall
      obtain ⟨d, hb⟩ := isOctal_iff.mp hall.2
      have hd : b.toNat - 0x30 = d := by
        rw [hb.1, Nat.add_sub_cancel_left]
      rw [List.foldl_append, List.foldl_cons, List.foldl_nil, hd]
      exact .snoc (ih hall.1) hb

end PickledModel.Text
