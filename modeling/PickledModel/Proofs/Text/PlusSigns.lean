import PickledModel.Proofs.Text.CodePoints
import PickledModel.Proofs.Text.QuotedBytes

/-! Plus signs in escapes. The readers of escaped text follow the grammar proper on a line,
unless they accept it with a plus sign where the first digit of an escape is due. -/

set_option autoImplicit false

namespace PickledModel.Text

def SignedByte (body : Bytes) : Prop :=
  ∃ before after out, body = before ++ 0x5c :: 0x78 :: 0x2b :: after ∧
    Unescaped SignedHexNumber before out

def SignedCode (line : Bytes) : Prop :=
  ∃ mark ∈ codeWidths.map Prod.fst, [0x5c, mark, 0x2b] <:+: line

theorem HexNumber.head_ne_plus {ds : Bytes} {n : Nat} (h : HexNumber ds n) (rest : Bytes) :
    ds ≠ 0x2b :: rest := by
  rintro rfl
  obtain ⟨d, hd⟩ := h.digit 0x2b List.mem_cons_self
  exact not_hexDigit rfl d hd

theorem Escape.of_not_plus {e found : Bytes} (he : Escape SignedHexNumber e found)
    (h : ∀ rest, e ≠ 0x78 :: 0x2b :: rest) : Escape HexNumber e found := by
  cases he with
  | newline => exact .newline
  | quote hb => exact .quote hb
  | letter hb => exact .letter hb
  | hex hlength hds =>
    rcases hds with hds | ⟨rest, rfl, -⟩
    · exact .hex hlength hds
    · exact absurd rfl (h rest)
  | octal hpos hlength hds => exact .octal hpos hlength hds
  | unknown hb => exact .unknown hb

theorem Escape.ne_plus {e found : Bytes} (he : Escape HexNumber e found) (rest after : Bytes) :
    e ++ rest ≠ 0x78 :: 0x2b :: after := by
  intro heq
  cases he with
  | newline => cases heq
  | @quote b hb =>
    cases heq
    exact absurd hb (by decide)
  | @letter b c hb =>
    cases heq
    have hb : (0x78 : UInt8) ∈ letters.map Prod.fst := List.mem_map.mpr ⟨_, hb, rfl⟩
    exact absurd hb (by decide)
  | @hex ds n hlength hds =>
    obtain ⟨b, ds, rfl⟩ := List.exists_cons_of_length_pos (hlength ▸ Nat.zero_lt_two)
    cases heq
    exact hds.head_ne_plus ds rfl
  | @octal _ n hpos hlength hds =>
    obtain ⟨b, e, rfl⟩ := List.exists_cons_of_length_pos hpos
    obtain ⟨rfl, -⟩ := List.cons.inj heq
    have hx := (octalNumber_iff.mp hds).1 0x78 List.mem_cons_self
    exact absurd hx (by decide)
  | unknown hb =>
    cases heq
    exact hb (.inr (.inr (.inr (.inl rfl))))

theorem Ends.append {e before : Bytes} (h : Ends e before) (after : Bytes) :
    Ends e (before ++ 0x5c :: after) := by
  intro hnumber hlength b hb
  cases before with
  | nil =>
    obtain rfl := Option.some.inj hb
    exact isOctal_eq_false_iff.mp (by decide)
  | cons c before => exact h hnumber hlength b hb

theorem Ends.of_append {e before after : Bytes} (h : Ends e (before ++ after)) :
    Ends e before := by
  intro hnumber hlength b hb
  refine h hnumber hlength b ?_
  rw [List.head?_append, Option.mem_def.mp hb]
  rfl

/-- Both readings of a body pass the same places between escapes. -/
theorem not_unescaped_of_signedByte {body out : Bytes} (h : SignedByte body) :
    ¬Unescaped HexNumber body out := by
  obtain ⟨before, after, v, rfl, hbefore⟩ := h
  -- along the lenient reading of what stands before the plus sign, the strict one follows it
  induction hbefore generalizing out with
  | nil =>
    intro hstrict
    generalize hline : [] ++ 0x5c :: 0x78 :: 0x2b :: after = line at hstrict
    cases hstrict with
    | nil => cases hline
    | plain hb => exact absurd (List.cons.inj hline).1.symm hb
    | escape he => exact he.ne_plus _ _ (List.cons.inj hline).2.symm
  | plain hb _ ih =>
    intro hstrict
    obtain ⟨w, hw, -⟩ := (unescaped_plain_iff hb).mp hstrict
    exact ih hw
  | @escape e found bs v he hends _ ih =>
    intro hstrict
    rw [List.cons_append, List.append_assoc] at hstrict
    generalize hline : 0x5c :: (e ++ (bs ++ 0x5c :: 0x78 :: 0x2b :: after)) = line at hstrict
    cases hstrict with
    | nil => cases hline
    | plain hb => exact absurd (List.cons.inj hline).1.symm hb
    | @escape e' found' bs' w he' hends' hbs' =>
      have heq : e ++ (bs ++ 0x5c :: 0x78 :: 0x2b :: after) = e' ++ bs' := (List.cons.inj hline).2
      have hread := escape?_of_escape _ he (hends.append (0x78 :: 0x2b :: after))
      rw [heq, escape?_of_escape bs' (he'.mono SignedHexNumber.of_hexNumber) hends'] at hread
      have hlength : e.length = e'.length := (Prod.mk.inj (Option.some.inj hread)).2.symm
      obtain ⟨-, rfl⟩ := List.append_inj heq hlength
      exact ih hbs'

theorem Unescaped.of_not_signedByte {body out : Bytes} (h : Unescaped SignedHexNumber body out)
    (hsigned : ¬SignedByte body) : Unescaped HexNumber body out := by
  induction h with
  | nil => exact .nil
  | plain hb _ ih =>
    refine .plain hb (ih ?_)
    rintro ⟨before, after, v, rfl, hv⟩
    exact hsigned ⟨_, after, _, rfl, .plain hb hv⟩
  | @escape e found bs out he hends _ ih =>
    refine .escape (he.of_not_plus ?_) hends (ih ?_)
    · rintro rest rfl
      exact hsigned ⟨[], rest ++ bs, [], rfl, .nil⟩
    · rintro ⟨before, after, v, rfl, hv⟩
      refine hsigned ⟨0x5c :: (e ++ before), after, _, ?_, .escape he hends.of_append hv⟩
      rw [List.cons_append, List.append_assoc]

theorem Quoted.not_signedByte {q : UInt8} {body out : Bytes}
    (h : Quoted HexNumber (q :: (body ++ [q])) out) : ¬SignedByte body := by
  intro hsigned
  generalize hline : q :: (body ++ [q]) = line at h
  obtain ⟨hq, hbody⟩ := h
  obtain ⟨rfl, heq⟩ := List.cons.inj hline
  obtain rfl := List.append_cancel_right heq
  exact not_unescaped_of_signedByte hsigned hbody

theorem infix_append_of_not_mem {b : UInt8} {p ds bs : Bytes} (hds : b ∉ ds)
    (h : (b :: p) <:+: ds ++ bs) : (b :: p) <:+: bs := by
  induction ds with
  | nil => exact h
  | cons d ds ih =>
    rw [List.mem_cons, not_or] at hds
    rcases List.infix_cons_iff.mp h with hprefix | hinfix
    · exact absurd (List.cons_prefix_cons.mp hprefix).1 hds.1
    · exact ih hds.2 hinfix

theorem not_rawText_of_signedCode {line : Bytes} {cs : List Char} (h : SignedCode line) :
    ¬RawText HexNumber line cs := by
  obtain ⟨mark, hmark, hinfix⟩ := h
  intro hstrict
  induction hstrict with
  | nil => cases List.infix_nil.mp hinfix
  | plain hb _ _ ih =>
    rcases List.infix_cons_iff.mp hinfix with hprefix | hinfix
    · obtain ⟨after, hafter⟩ := hprefix
      cases hafter
      exact hb rfl mark rfl hmark
    · exact ih hinfix
  | @code m ds c bs cs hm hds _ ih =>
    rcases List.infix_cons_iff.mp hinfix with hprefix | hinfix
    · obtain ⟨after, hafter⟩ := hprefix
      obtain ⟨b, ds, rfl⟩ :=
        List.exists_cons_of_length_pos (Nat.lt_of_lt_of_le Nat.zero_lt_two (two_le_width hm))
      cases hafter
      exact hds.head_ne_plus ds rfl
    · have hinfix' : _ <:+: (m :: ds) ++ _ := hinfix
      refine ih (infix_append_of_not_mem ?_ hinfix')
      rintro (_ | ⟨_, hmem⟩)
      · have hm : (0x5c : UInt8) ∈ codeWidths.map Prod.fst := List.mem_map.mpr ⟨_, hm, rfl⟩
        exact absurd hm (by decide)
      · obtain ⟨d, hd⟩ := hds.digit _ hmem
        exact not_hexDigit rfl d hd

theorem RawText.of_not_signedCode {line : Bytes} {cs : List Char}
    (h : RawText SignedHexNumber line cs) (hsigned : ¬SignedCode line) :
    RawText HexNumber line cs := by
  induction h with
  | nil => exact .nil
  | plain hb hc _ ih =>
    refine .plain hb hc (ih ?_)
    rintro ⟨mark, hmark, hinfix⟩
    exact hsigned ⟨mark, hmark, hinfix.trans (List.suffix_cons _ _).isInfix⟩
  | @code m ds c bs cs hm hds _ ih =>
    rcases hds with hds | ⟨rest, rfl, -⟩
    · refine .code hm hds (ih ?_)
      rintro ⟨mark, hmark, hinfix⟩
      refine hsigned ⟨mark, hmark, hinfix.trans ?_⟩
      exact (List.suffix_append (0x5c :: m :: ds) bs).isInfix
    · exact absurd ⟨m, List.mem_map.mpr ⟨_, hm, rfl⟩, ⟨[], rest ++ bs, rfl⟩⟩ hsigned

/-- The two readers of escaped text accept what the grammars with signs derive, and read it
as derived. They follow the grammars proper on all lines but those that they accept with a
plus sign for a digit. -/
theorem escapes_follow_grammar (line : Bytes) :
    (∀ out, unquote? line = some out ↔ Quoted SignedHexNumber line out) ∧
      (∀ s, rawUnicode? line = some s ↔ RawText SignedHexNumber line s.toList) ∧
      ((∀ out, unquote? line = some out ↔ Quoted HexNumber line out) ↔
        ¬((unquote? line).isSome ∧ ∃ q body, line = q :: (body ++ [q]) ∧ SignedByte body)) ∧
      ((∀ s, rawUnicode? line = some s ↔ RawText HexNumber line s.toList) ↔
        ¬((rawUnicode? line).isSome ∧ SignedCode line)) := by
  refine ⟨fun _ => unquote?_eq_some_iff, fun _ => rawUnicode?_eq_some_iff, ?_, ?_⟩
  · constructor
    · rintro h ⟨hsome, q, body, rfl, hsigned⟩
      obtain ⟨out, hout⟩ := Option.isSome_iff_exists.mp hsome
      exact ((h out).mp hout).not_signedByte hsigned
    · intro h out
      rw [unquote?_eq_some_iff]
      refine ⟨fun hquoted => ?_, Quoted.mono SignedHexNumber.of_hexNumber⟩
      have hsome := Option.isSome_of_eq_some (unquote?_eq_some_iff.mpr hquoted)
      obtain ⟨hq, hbody⟩ := hquoted
      exact .mk hq (hbody.of_not_signedByte fun hsigned => h ⟨hsome, _, _, rfl, hsigned⟩)
  · constructor
    · rintro h ⟨hsome, hsigned⟩
      obtain ⟨s, hs⟩ := Option.isSome_iff_exists.mp hsome
      exact not_rawText_of_signedCode hsigned ((h s).mp hs)
    · intro h s
      rw [rawUnicode?_eq_some_iff]
      refine ⟨fun htext => ?_, RawText.mono SignedHexNumber.of_hexNumber⟩
      have hsome := Option.isSome_of_eq_some (rawUnicode?_eq_some_iff.mpr htext)
      exact htext.of_not_signedCode fun hsigned => h ⟨hsome, hsigned⟩

/-- The lines `'\x+1'` and `\u+041` are read, and neither grammar derives them. -/
theorem plus_sign_taken_for_digit :
    unquote? [0x27, 0x5c, 0x78, 0x2b, 0x31, 0x27] = some [0x01] ∧
      (∀ out, ¬Quoted HexNumber [0x27, 0x5c, 0x78, 0x2b, 0x31, 0x27] out) ∧
      rawUnicode? [0x5c, 0x75, 0x2b, 0x30, 0x34, 0x31] = some "A" ∧
      ∀ cs, ¬RawText HexNumber [0x5c, 0x75, 0x2b, 0x30, 0x34, 0x31] cs := by
  refine ⟨rfl, fun out hquoted => ?_, rfl, fun cs => ?_⟩
  · have hsigned : SignedByte [0x5c, 0x78, 0x2b, 0x31] := ⟨[], [0x31], [], rfl, .nil⟩
    exact Quoted.not_signedByte (q := 0x27) hquoted hsigned
  · exact not_rawText_of_signedCode ⟨0x75, by decide, [], [0x30, 0x34, 0x31], rfl⟩

end PickledModel.Text
