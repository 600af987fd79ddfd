import Mathlib.Algebra.Ring.Int.Defs
import Mathlib.Algebra.Ring.Nat
import PickledModel.Proofs.Stream.Integers
import PickledModel.Proofs.Text.CodePoints
import PickledModel.Proofs.Text.QuotedBytes

/-! Text in all its forms. The quoted form of a byte string and the escaped form of a text
stand in the grammar of the lines, where they are derived for what they were written for,
so that a line pushes the same text as a byte run after its length. -/

set_option autoImplicit false

namespace PickledModel

namespace Text

def hexCodeDigit (n : Nat) : UInt8 := UInt8.ofNat (if n < 10 then 0x30 + n else 0x57 + n)

def hexCode : Nat → Nat → Bytes
  | 0, _ => []
  | width + 1, n => hexCode width (n / 16) ++ [hexCodeDigit (n % 16)]

def quoteMark (bs : Bytes) : UInt8 := if 0x27 ∈ bs ∧ 0x22 ∉ bs then 0x22 else 0x27

def quoteByte (q b : UInt8) : Bytes :=
  if b = 0x5c ∨ b = q then [0x5c, b]
  else if b = 0x09 then [0x5c, 0x74]
  else if b = 0x0a then [0x5c, 0x6e]
  else if b = 0x0d then [0x5c, 0x72]
  else if 0x20 ≤ b ∧ b ≤ 0x7e then [b]
  else 0x5c :: 0x78 :: hexCode 2 b.toNat

def quote (bs : Bytes) : Bytes :=
  quoteMark bs :: (bs.flatMap (quoteByte (quoteMark bs)) ++ [quoteMark bs])

/-- A character as it stands in a line of text. The backslash and the characters that end
a line or a text are named by their code points, as are those beyond Latin-1. -/
def codeUnit (c : Char) : Bytes :=
  if c.toNat ∈ [0x5c, 0x00, 0x0a, 0x0d, 0x1a] then 0x5c :: 0x75 :: hexCode 4 c.toNat
  else if c.toNat < 0x100 then [UInt8.ofNat c.toNat]
  else if c.toNat < 0x10000 then 0x5c :: 0x75 :: hexCode 4 c.toNat
  else 0x5c :: 0x55 :: hexCode 8 c.toNat

def rawEscape (s : String) : Bytes := s.toList.flatMap codeUnit

theorem hexCode_length (width n : Nat) : (hexCode width n).length = width := by
  induction width generalizing n with
  | zero => rfl
  | succ width ih => rw [hexCode, List.length_append, ih, List.length_singleton]

theorem hexDigit_hexCodeDigit {n : Nat} (h : n < 16) : HexDigit (hexCodeDigit n) n := by
  unfold HexDigit hexCodeDigit
  split_ifs with hten
  · rw [UInt8.toNat_ofNat']
    omega
  · rw [UInt8.toNat_ofNat']
    omega

theorem hexNumber_hexCode {width n : Nat} (h : n < 16 ^ width) : HexNumber (hexCode width n) n := by
  induction width generalizing n with
  | zero =>
    obtain rfl := Nat.lt_one_iff.mp h
    exact .nil
  | succ width ih =>
    have hrest : n / 16 < 16 ^ width := Nat.div_lt_of_lt_mul (by rwa [Nat.pow_succ'] at h)
    have hsnoc := Positional.snoc (ih hrest) (hexDigit_hexCodeDigit (Nat.mod_lt n (by decide)))
    rw [Nat.div_add_mod] at hsnoc
    exact hsnoc

theorem newline_not_mem_hexCode (width n : Nat) : 0x0a ∉ hexCode width n := by
  induction width generalizing n with
  | zero => exact List.not_mem_nil
  | succ width ih =>
    rw [hexCode, List.mem_append, not_or, List.mem_singleton]
    refine ⟨ih _, fun hdigit => ?_⟩
    have hd := hexDigit_hexCodeDigit (Nat.mod_lt n (show 0 < 16 by decide))
    rw [← hdigit] at hd
    exact not_hexDigit rfl _ hd

theorem quoteMark_eq (bs : Bytes) : quoteMark bs = 0x27 ∨ quoteMark bs = 0x22 := by
  unfold quoteMark
  split_ifs
  · exact .inr rfl
  · exact .inl rfl

/-- What is written for a byte is derived as that byte, whatever follows. -/
theorem Unescaped.quoteByte {q b : UInt8} {rest out : Bytes} (hq : q = 0x27 ∨ q = 0x22)
    (h : Unescaped HexNumber rest out) :
    Unescaped HexNumber (quoteByte q b ++ rest) (b :: out) := by
  have hletter : ∀ {b c : UInt8}, (b, c) ∈ letters →
      Unescaped HexNumber (0x5c :: b :: rest) (c :: out) := by
    intro b c hb
    have hends : Ends [b] rest := .of_mem List.mem_cons_self
      (isOctal_of_letterEscape? (letterEscape?_eq_some_iff.mpr (.inr hb)))
    exact .escape (e := [b]) (.letter hb) hends h
  unfold Text.quoteByte
  split_ifs with hself htab hnewline hreturn hplain
  · have hb : b ∈ [0x5c, 0x27, 0x22] := by
      rcases hself with rfl | rfl
      · exact List.mem_cons_self
      · rcases hq with rfl | rfl <;> decide
    have hends : Ends [b] rest :=
      .of_mem List.mem_cons_self
        (isOctal_of_letterEscape? (letterEscape?_eq_some_iff.mpr (.inl ⟨hb, rfl⟩)))
    exact .escape (e := [b]) (.quote hb) hends h
  · exact htab ▸ hletter (b := 0x74) (by decide)
  · exact hnewline ▸ hletter (b := 0x6e) (by decide)
  · exact hreturn ▸ hletter (b := 0x72) (by decide)
  · exact .plain (fun hb => hself (.inl hb)) h
  · have hex : Escape HexNumber (0x78 :: hexCode 2 b.toNat) [b] := by
      have hcode := Escape.hex (hexCode_length 2 b.toNat) (hexNumber_hexCode b.toNat_lt)
      rwa [UInt8.ofNat_toNat] at hcode
    exact .escape hex (.of_mem List.mem_cons_self (by decide)) h

/-- A byte string is read back from its printed form. -/
theorem quoted_quote (bs : Bytes) : Quoted HexNumber (quote bs) bs := by
  have hq := quoteMark_eq bs
  refine .mk hq ?_
  generalize quoteMark bs = q at hq
  induction bs with
  | nil => exact .nil
  | cons b bs ih =>
    rw [List.flatMap_cons]
    exact .quoteByte hq ih

theorem newline_not_mem_quoteByte {q : UInt8} (hq : q ≠ 0x0a) (b : UInt8) :
    0x0a ∉ quoteByte q b := by
  unfold quoteByte
  split_ifs with hself htab hnewline hreturn hplain
  · have hb : b ≠ 0x0a := by
      rintro rfl
      rcases hself with h | h
      · exact absurd h (by decide)
      · exact hq h.symm
    simpa using hb.symm
  · decide
  · decide
  · decide
  · rw [List.mem_singleton]
    exact Ne.symm hnewline
  · have hcode := newline_not_mem_hexCode 2 b.toNat
    simpa using hcode

theorem newline_not_mem_quote (bs : Bytes) : 0x0a ∉ quote bs := by
  have hmark : quoteMark bs ≠ 0x0a := by
    rcases quoteMark_eq bs with h | h
    · rw [h]
      decide
    · rw [h]
      decide
  simp only [quote, List.mem_cons, List.mem_append, List.mem_flatMap, List.not_mem_nil, or_false]
  rintro (h | ⟨b, -, hb⟩ | h)
  · exact hmark h.symm
  · exact newline_not_mem_quoteByte hmark b hb
  · exact hmark h.symm

theorem toNat_ofNat_of_lt {n : Nat} (h : n < 0x100) : (UInt8.ofNat n).toNat = n := by
  rw [UInt8.toNat_ofNat']
  exact Nat.mod_eq_of_lt h

/-- What is written for a character is derived as that character, whatever follows. -/
theorem RawText.codeUnit {c : Char} {rest : Bytes} {cs : List Char}
    (h : RawText HexNumber rest cs) : RawText HexNumber (codeUnit c ++ rest) (c :: cs) := by
  have hcode : ∀ {mark : UInt8} {width : Nat}, (mark, width) ∈ codeWidths → c.toNat < 16 ^ width →
      RawText HexNumber (0x5c :: mark :: (hexCode width c.toNat ++ rest)) (c :: cs) := by
    intro mark width hmark hc
    refine .code ?_ (hexNumber_hexCode hc) h
    rwa [hexCode_length]
  unfold Text.codeUnit
  split_ifs with hnamed hlatin hshort
  · have hsmall : ∀ n ∈ [0x5c, 0x00, 0x0a, 0x0d, 0x1a], n < 16 ^ 4 := by decide
    exact hcode (by decide) (hsmall _ hnamed)
  · refine .plain (fun hb => absurd ?_ hnamed) (toNat_ofNat_of_lt hlatin).symm h
    have hn := congrArg UInt8.toNat hb
    rw [toNat_ofNat_of_lt hlatin] at hn
    rw [hn]
    decide
  · exact hcode (by decide) hshort
  · have hvalid : c.toNat < 0x110000 := by
      rcases c.valid with hc | hc
      · exact Nat.lt_trans hc (by decide)
      · exact hc.2
    exact hcode (by decide) (Nat.lt_trans hvalid (by decide))

/-- A text is read back from its escaped form. -/
theorem rawText_rawEscape (s : String) : RawText HexNumber (rawEscape s) s.toList := by
  unfold rawEscape
  induction s.toList with
  | nil => exact .nil
  | cons c cs ih =>
    rw [List.flatMap_cons]
    exact .codeUnit ih

theorem newline_not_mem_rawEscape (s : String) : 0x0a ∉ rawEscape s := by
  rw [rawEscape, List.mem_flatMap]
  rintro ⟨c, -, hc⟩
  have hcode : ∀ width, 0x0a ∉ hexCode width c.toNat :=
    fun width => newline_not_mem_hexCode width c.toNat
  unfold codeUnit at hc
  split_ifs at hc with hnamed hlatin hshort
  · simp [hcode] at hc
  · have hn := congrArg UInt8.toNat (List.mem_singleton.mp hc)
    rw [toNat_ofNat_of_lt hlatin] at hn
    rw [← hn] at hnamed
    exact hnamed (by decide)
  · simp [hcode] at hc
  · simp [hcode] at hc

theorem unquote?_quote (bs : Bytes) : unquote? (quote bs) = some bs :=
  unquote?_eq_some_iff.mpr ((quoted_quote bs).mono SignedHexNumber.of_hexNumber)

theorem rawUnicode?_rawEscape (s : String) : rawUnicode? (rawEscape s) = some s :=
  rawUnicode?_eq_some_iff.mpr ((rawText_rawEscape s).mono SignedHexNumber.of_hexNumber)

end Text

/-- The ways to write a text, each an opcode and its operands. Byte strings are texts of
Latin-1 characters. -/
inductive TextForm : String → Opcode → Bytes → Prop
  | quoted (bs : Bytes) : TextForm (Text.latin1 bs) .string (Text.quote bs ++ [0x0a])
  | bytes {bs : Bytes} (hbs : bs.length < 2 ^ 31) :
      TextForm (Text.latin1 bs) .binString (counted 4 bs)
  | shortBytes {bs : Bytes} (hbs : bs.length < 2 ^ 8) :
      TextForm (Text.latin1 bs) .shortBinString (counted 1 bs)
  | escaped (s : String) : TextForm s .unicode (Text.rawEscape s ++ [0x0a])
  | text {s : String} (hs : (Text.utf8Bytes s).length < 2 ^ 32) :
      TextForm s .binUnicode (counted 4 (Text.utf8Bytes s))
  | shortText {s : String} (hs : (Text.utf8Bytes s).length < 2 ^ 8) :
      TextForm s .shortBinUnicode (counted 1 (Text.utf8Bytes s))
  | longText {s : String} (hs : (Text.utf8Bytes s).length < 2 ^ 64) :
      TextForm s .binUnicode8 (counted 8 (Text.utf8Bytes s))

namespace Fetch
open Process

/-- A byte run, however it is read, is pushed as its Latin-1 text. -/
theorem start_pushLatin1 {run : Process Cursor Bytes} {c c' : Cursor} {bs : Bytes}
    (hrun : run.start c = (.ok bs, c')) :
    (do return Instruction.push (.str (Text.latin1 (← run)))).start c =
      (.ok (.push (.str (Text.latin1 bs))), c') := by
  rw [start_bind, hrun]
  rfl

theorem start_pushText (op : Opcode) (width : Nat) {s : String}
    (hs : (Text.utf8Bytes s).length < 256 ^ width) (p : Nat) (rest : Bytes) :
    (pushText op width).start ⟨p, counted width (Text.utf8Bytes s) ++ rest⟩ =
      (.ok (.push (.str s)), ⟨p + (counted width (Text.utf8Bytes s)).length, rest⟩) := by
  rw [pushText, start_bind, start_run_counted width p rest hs]
  simp only [Text.utf8?_utf8Bytes, expect]
  rfl

/-- Each form of a text is read as the same instruction. -/
theorem start_text {s : String} {op : Opcode} {operands : Bytes} (h : TextForm s op operands)
    (offset p : Nat) (rest : Bytes) :
    (instruction offset op).start ⟨p, operands ++ rest⟩ =
      (.ok (.push (.str s)), ⟨p + operands.length, rest⟩) := by
  cases h with
  | quoted bs =>
    have hparse : (Text.unquote? (Text.quote bs)).map (fun bs => Value.str (Text.latin1 bs)) =
        some (.str (Text.latin1 bs)) := by
      rw [Text.unquote?_quote, Option.map_some]
    rw [instruction, List.append_assoc, List.length_append]
    exact start_pushLine .string (Text.newline_not_mem_quote bs) hparse p rest
  | @bytes bs hbs =>
    rw [instruction]
    exact start_pushLatin1 (start_signedRun .binString hbs p rest)
  | @shortBytes bs hbs =>
    rw [instruction]
    exact start_pushLatin1 (start_run_counted 1 p rest hbs)
  | escaped s =>
    have hparse : (Text.rawUnicode? (Text.rawEscape s)).map Value.str = some (.str s) := by
      rw [Text.rawUnicode?_rawEscape, Option.map_some]
    rw [instruction, List.append_assoc, List.length_append]
    exact start_pushLine .unicode (Text.newline_not_mem_rawEscape s) hparse p rest
  | text hs =>
    rw [instruction]
    exact start_pushText .binUnicode 4 (by omega) p rest
  | shortText hs =>
    rw [instruction]
    exact start_pushText .shortBinUnicode 1 (by omega) p rest
  | longText hs =>
    rw [instruction]
    exact start_pushText .binUnicode8 8 (by omega) p rest

end Fetch

namespace Machine
open Process

/-- A byte string is read back from its printed form and a text from its escaped form, and
in each of its forms a text is pushed alike, and nothing else changes. -/
theorem text_forms_agree (r : Registry) :
    (∀ bs, Text.unquote? (Text.quote bs) = some bs) ∧
    (∀ s, Text.rawUnicode? (Text.rawEscape s) = some s) ∧
    (∀ s op operands, TextForm s op operands → ∀ (m : Machine) (p : Nat) (rest : Bytes),
      (next r).start (m.facing p (op.code :: (operands ++ rest))) =
        (.ok none, { m with stack := holding (.str s) :: m.stack }.facing
          (p + 1 + operands.length) rest)) := by
  refine ⟨Text.unquote?_quote, Text.rawUnicode?_rawEscape, ?_⟩
  intro s op operands h m p rest
  have hfetch := Fetch.start_text h p (p + 1) rest
  rw [start_next m hfetch (by simp), step, start_push _ (Nat.zero_le _), holding,
    show (Value.str s).nesting = 0 from Value.nesting_leaf _]
  rfl

/-- A byte string with a quote, a backslash, a digit and a newline, and a text with a
character beyond Latin-1 before a digit. -/
theorem text_forms_agree_escaped :
    TextForm (Text.latin1 [0x27, 0x5c, 0x31, 0x0a]) .string
      (Text.quote [0x27, 0x5c, 0x31, 0x0a] ++ [0x0a]) ∧
    Text.quote [0x27, 0x5c, 0x31, 0x0a] = [0x22, 0x27, 0x5c, 0x5c, 0x31, 0x5c, 0x6e, 0x22] ∧
    (next .standard).start ((ofBytes []).facing 0 (Opcode.string.code ::
        (Text.quote [0x27, 0x5c, 0x31, 0x0a] ++ [0x0a] ++ [0x2e]))) =
      (.ok none, { ofBytes [] with
        stack := [holding (.str (Text.latin1 [0x27, 0x5c, 0x31, 0x0a]))] }.facing 10 [0x2e]) := by
  have hform := TextForm.quoted [0x27, 0x5c, 0x31, 0x0a]
  exact ⟨hform, by decide,
    (text_forms_agree .standard).2.2 _ _ _ hform (ofBytes []) 0 [0x2e]⟩

end Machine

end PickledModel
