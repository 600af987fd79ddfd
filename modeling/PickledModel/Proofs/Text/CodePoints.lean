import PickledModel.Proofs.Text.EscapeGrammar

/-! Text that names code points. A line goes on with the name of a code point, or with a
byte that stands for the character of its number, and it is read just so. -/

set_option autoImplicit false

namespace PickledModel.Text

theorem latin1Char_toNat (b : UInt8) : (latin1Char b).toNat = b.toNat := by
  have hb := b.toNat_lt
  have hvalid : b.toNat.isValidChar := .inl (by omega)
  rw [latin1Char, Char.ofNat, dif_pos hvalid]
  exact UInt32.toNat_ofNatLT

theorem char_eq_of_toNat {c d : Char} (h : c.toNat = d.toNat) : c = d :=
  Char.ext (UInt32.toNat.inj h)

theorem scalar?_eq_some_iff {n : Nat} {c : Char} : scalar? n = some c ↔ n = c.toNat := by
  unfold scalar?
  constructor
  · intro h
    by_cases hn : n.isValidChar
    · rw [dif_pos hn] at h
      obtain rfl := Option.some.inj h
      exact UInt32.toNat_ofNatLT.symm
    · rw [dif_neg hn] at h
      cases h
  · rintro rfl
    have hc : c.toNat.isValidChar := c.valid
    rw [dif_pos hc]
    exact congrArg some (char_eq_of_toNat UInt32.toNat_ofNatLT)

theorem unicodeEscapeWidth_code {mark : UInt8} {width : Nat} (bs : Bytes)
    (h : (mark, width) ∈ codeWidths) : unicodeEscapeWidth (0x5c :: mark :: bs) = width := by
  simp only [codeWidths, List.mem_cons, Prod.mk.injEq, List.not_mem_nil, or_false] at h
  rcases h with ⟨rfl, rfl⟩ | ⟨rfl, rfl⟩
  all_goals rfl

theorem unicodeEscapeWidth_eq_zero {b : UInt8} {bs : Bytes}
    (h : b = 0x5c → ∀ x ∈ bs.head?, x ∉ codeWidths.map Prod.fst) :
    unicodeEscapeWidth (b :: bs) = 0 := by
  unfold unicodeEscapeWidth
  split
  · next heq =>
    cases heq
    exact absurd (by decide) (h rfl 0x75 rfl)
  · next heq =>
    cases heq
    exact absurd (by decide) (h rfl 0x55 rfl)
  · rfl

/-- A line of text goes on with a character or with the name of a code point. -/
theorem plain_or_code (b : UInt8) (bs : Bytes) :
    (b = 0x5c → ∀ x ∈ bs.head?, x ∉ codeWidths.map Prod.fst) ∨
      ∃ mark width rest, (mark, width) ∈ codeWidths ∧ b = 0x5c ∧ bs = mark :: rest := by
  by_cases hb : b = 0x5c
  · cases bs with
    | nil => exact .inl fun _ => by simp
    | cons mark rest =>
      by_cases hmark : mark ∈ codeWidths.map Prod.fst
      · obtain ⟨⟨mark, width⟩, hmem, rfl⟩ := List.mem_map.mp hmark
        exact .inr ⟨mark, width, rest, hmem, hb, rfl⟩
      · refine .inl fun _ x hx => ?_
        obtain rfl := Option.some.inj hx
        exact hmark
  · exact .inl fun h => absurd h hb

theorem two_le_width {mark : UInt8} {width : Nat} (h : (mark, width) ∈ codeWidths) : 2 ≤ width := by
  have hall : ∀ code ∈ codeWidths, 2 ≤ code.2 := by decide
  exact hall _ h

theorem rawText_nil_iff {number : Bytes → Nat → Prop} {cs : List Char} :
    RawText number [] cs ↔ cs = [] := by
  constructor
  · intro h
    cases h
    rfl
  · rintro rfl
    exact .nil

theorem rawText_plain_iff {number : Bytes → Nat → Prop} {b : UInt8} {bs : Bytes} {cs : List Char}
    (hb : b = 0x5c → ∀ x ∈ bs.head?, x ∉ codeWidths.map Prod.fst) :
    RawText number (b :: bs) cs ↔ ∃ rest, RawText number bs rest ∧ cs = latin1Char b :: rest := by
  constructor
  · intro h
    cases h with
    | plain _ hc hbs =>
      rw [← latin1Char_toNat] at hc
      exact ⟨_, hbs, by rw [char_eq_of_toNat hc]⟩
    | @code mark _ _ _ _ hmark =>
      exact absurd (List.mem_map.mpr ⟨_, hmark, rfl⟩) (hb rfl mark rfl)
  · rintro ⟨rest, hrest, rfl⟩
    exact .plain hb (latin1Char_toNat b) hrest

theorem codeWidths_unique {mark : UInt8} {m n : Nat} (hm : (mark, m) ∈ codeWidths)
    (hn : (mark, n) ∈ codeWidths) : m = n :=
  (unicodeEscapeWidth_code [] hm).symm.trans (unicodeEscapeWidth_code [] hn)

theorem rawText_code_iff {number : Bytes → Nat → Prop} {mark : UInt8} {width : Nat} {bs : Bytes}
    {cs : List Char} (hmark : (mark, width) ∈ codeWidths) :
    RawText number (0x5c :: mark :: bs) cs ↔ (bs.take width).length = width ∧
      ∃ c rest, number (bs.take width) c.toNat ∧ RawText number (bs.drop width) rest ∧
        cs = c :: rest := by
  constructor
  · intro h
    generalize hline : 0x5c :: mark :: bs = line at h
    cases h with
    | nil => cases hline
    | plain hb =>
      cases hline
      exact absurd (List.mem_map.mpr ⟨_, hmark, rfl⟩) (hb rfl mark rfl)
    | @code mark ds c rest cs hds hnumber hrest =>
      cases hline
      obtain rfl := codeWidths_unique hds hmark
      rw [List.take_left, List.drop_left]
      exact ⟨rfl, c, cs, hnumber, hrest, rfl⟩
  · rintro ⟨hlength, c, rest, hnumber, hrest, rfl⟩
    rw [← List.take_append_drop width bs]
    refine .code ?_ hnumber hrest
    rwa [hlength]

theorem rawUnicode?_go_plain {b : UInt8} {bs : Bytes} (fuel : Nat) (done : List Char)
    (hb : b = 0x5c → ∀ x ∈ bs.head?, x ∉ codeWidths.map Prod.fst) :
    rawUnicode?.go (fuel + 1) (b :: bs) done = rawUnicode?.go fuel bs (latin1Char b :: done) := by
  rw [rawUnicode?.go, unicodeEscapeWidth_eq_zero hb]
  rfl

theorem rawUnicode?_go_code {mark : UInt8} {width : Nat} (fuel : Nat) (bs : Bytes)
    (done : List Char) (hmark : (mark, width) ∈ codeWidths) :
    rawUnicode?.go (fuel + 1) (0x5c :: mark :: bs) done =
      if (bs.take width).length = width then
        match (hexadecimal? (bs.take width)).bind scalar? with
        | none => none
        | some c => rawUnicode?.go fuel (bs.drop width) (c :: done)
      else none := by
  rw [rawUnicode?.go, unicodeEscapeWidth_code bs hmark]
  simp only [codeWidths, List.mem_cons, Prod.mk.injEq, List.not_mem_nil, or_false] at hmark
  rcases hmark with ⟨-, rfl⟩ | ⟨-, rfl⟩
  all_goals rfl

/-- The digits of a code point are read, and then the rest. -/
theorem rawUnicode?_go_code_eq_some_iff {mark : UInt8} {width fuel : Nat} {bs : Bytes}
    {done : List Char} {s : String} (hmark : (mark, width) ∈ codeWidths) :
    rawUnicode?.go (fuel + 1) (0x5c :: mark :: bs) done = some s ↔
      (bs.take width).length = width ∧ ∃ c, SignedHexNumber (bs.take width) c.toNat ∧
        rawUnicode?.go fuel (bs.drop width) (c :: done) = some s := by
  rw [rawUnicode?_go_code fuel bs done hmark]
  split_ifs with hlength
  · have hdigits : 2 ≤ (bs.take width).length := by
      rw [hlength]
      exact two_le_width hmark
    have hread : ∀ c, (hexadecimal? (bs.take width)).bind scalar? = some c ↔
        SignedHexNumber (bs.take width) c.toNat := by
      simp [Option.bind_eq_some_iff, hexadecimal?_eq_some_iff hdigits, scalar?_eq_some_iff]
    simp only [← hread]
    cases (hexadecimal? (bs.take width)).bind scalar? with
    | none => simp
    | some c => simp [hlength]
  · simp only [hlength, false_and]

theorem rawUnicode?_go_eq_some_iff {fuel : Nat} {bs : Bytes} {done : List Char} {s : String}
    (h : bs.length ≤ fuel) :
    rawUnicode?.go fuel bs done = some s ↔
      ∃ cs, RawText SignedHexNumber bs cs ∧ s.toList = done.reverse ++ cs := by
  induction fuel generalizing bs done with
  | zero =>
    obtain rfl := List.length_eq_zero_iff.mp (Nat.le_zero.mp h)
    simp [rawUnicode?.go, rawText_nil_iff, String.ext_iff, eq_comm]
  | succ fuel ih =>
    cases bs with
    | nil => simp [rawUnicode?.go, rawText_nil_iff, String.ext_iff, eq_comm]
    | cons b bs =>
      rw [List.length_cons] at h
      rcases plain_or_code b bs with hb | ⟨mark, width, bs, hmark, rfl, rfl⟩
      · rw [rawUnicode?_go_plain fuel done hb, ih (Nat.le_of_succ_le_succ h)]
        simp only [rawText_plain_iff hb]
        constructor
        · rintro ⟨cs, hcs, hs⟩
          exact ⟨_, ⟨cs, hcs, rfl⟩, by simpa using hs⟩
        · rintro ⟨_, ⟨cs, hcs, rfl⟩, hs⟩
          exact ⟨cs, hcs, by simpa using hs⟩
      · have hrest : (bs.drop width).length ≤ fuel := by
          rw [List.length_drop]
          rw [List.length_cons] at h
          omega
        simp only [rawUnicode?_go_code_eq_some_iff hmark, rawText_code_iff hmark, ih hrest]
        constructor
        · rintro ⟨hlength, c, hds, cs, hcs, hs⟩
          exact ⟨_, ⟨hlength, c, cs, hds, hcs, rfl⟩, by simpa using hs⟩
        · rintro ⟨_, ⟨hlength, c, cs, hds, hcs, rfl⟩, hs⟩
          exact ⟨hlength, c, hds, cs, hcs, by simpa using hs⟩

/-- What the reader of text accepts. -/
theorem rawUnicode?_eq_some_iff {line : Bytes} {s : String} :
    rawUnicode? line = some s ↔ RawText SignedHexNumber line s.toList := by
  simp only [rawUnicode?, rawUnicode?_go_eq_some_iff (Nat.le_refl _), List.reverse_nil,
    List.nil_append]
  constructor
  · rintro ⟨cs, hcs, rfl⟩
    exact hcs
  · exact fun h => ⟨_, h, rfl⟩

end PickledModel.Text
