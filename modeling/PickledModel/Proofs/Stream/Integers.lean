import Mathlib.Algebra.Ring.Int.Defs
import Mathlib.Algebra.Ring.Nat
import PickledModel.Proofs.Stream.RoundTrip

/-! Integers in all their forms. A decimal line, a byte run in two's complement of any
width up to sixteen bytes and a word of fixed width push the same value for the same
integer, one of 64 bits where those hold it and a wide one elsewhere. -/

set_option autoImplicit false

namespace PickledModel

namespace Word

/-- A byte run writes an integer in two's complement: it is the integer's residue, and
the integer lies in the half of the range below zero or in that above. -/
structure Encodes (bs : Bytes) (i : Int) : Prop where
  residue : (value bs : Int) = i % (256 ^ bs.length : Nat)
  low : -(256 ^ bs.length : Nat) ≤ i * 2
  high : i * 2 < (256 ^ bs.length : Nat)

theorem signed_eq_iff {bs : Bytes} {i : Int} : signed bs = i ↔ Encodes bs i := by
  have hpos : 0 < 256 ^ bs.length := Nat.pow_pos (by decide)
  have hvalue := value_lt bs
  constructor
  · rintro rfl
    have hlow := Int.le_bmod (x := value bs) hpos
    have hhigh := Int.bmod_lt (x := value bs) hpos
    refine ⟨?_, ?_, ?_⟩
    · rw [signed, Int.bmod_emod, Int.emod_eq_of_lt (by omega) (by omega)]
    · rw [signed]
      omega
    · rw [signed]
      omega
  · rintro ⟨hresidue, hlow, hhigh⟩
    rw [signed, hresidue, Int.emod_bmod]
    exact Int.bmod_eq_of_le_mul_two hlow hhigh

/-- An integer is written in every width from its own one on. -/
theorem exists_encodes {i : Int} {width : Nat} (h : signedWidth i ≤ width) :
    ∃ bs, bs.length = width ∧ Encodes bs i := by
  have hpow := Nat.pow_le_pow_right (show 0 < 256 by decide) h
  have hpos : 0 < 256 ^ width := Nat.pow_pos (by decide)
  obtain ⟨hlow, hhigh⟩ := signedWidth_range i
  have hmod := Int.emod_nonneg i (show ((256 ^ width : Nat) : Int) ≠ 0 by omega)
  have hlt := Int.emod_lt_of_pos i (show 0 < ((256 ^ width : Nat) : Int) by omega)
  refine ⟨digits width (i % (256 ^ width : Nat)).toNat, digits_length _ _, ?_, ?_, ?_⟩
  · rw [digits_length, value_digits, Nat.mod_eq_of_lt (by omega), Int.toNat_of_nonneg hmod]
  · rw [digits_length]
    omega
  · rw [digits_length]
    omega

end Word

namespace Text

/-- Characters below 128 are their own UTF-8 form. -/
theorem utf8Bytes_of_ascii {s : String} (h : ∀ c ∈ s.toList, c.toNat < 128) :
    utf8Bytes s = latin1Codes s.toList := by
  obtain ⟨cs, rfl⟩ := s.exists_eq_ofList
  rw [String.toList_ofList] at h ⊢
  rw [utf8Bytes, String.toUTF8_eq_toByteArray, String.toByteArray_ofList, List.utf8Encode,
    List.toList_data_toByteArray]
  induction cs with
  | nil => rfl
  | cons c cs ih =>
    obtain ⟨hc, hcs⟩ := List.forall_mem_cons.mp h
    have hone : String.utf8EncodeChar c = [UInt8.ofNat c.toNat] := if_pos (Nat.le_of_lt_succ hc)
    rw [List.flatMap_cons, hone, ih hcs]
    rfl

theorem toString_injective {i j : Int} (h : toString i = toString j) : i = j := by
  have hi := integer?_toString (Nat.lt_succ_of_le (Nat.le_max_left i.natAbs j.natAbs))
  have hj := integer?_toString (Nat.lt_succ_of_le (Nat.le_max_right i.natAbs j.natAbs))
  rw [h, hj] at hi
  exact (Option.some.inj hi).symm

def IsDecimal (c : Char) : Prop := c.toNat = 45 ∨ 48 ≤ c.toNat ∧ c.toNat ≤ 57

theorem isDecimal_of_mem_toString {i : Int} {c : Char} (h : c ∈ (toString i).toList) :
    IsDecimal c := by
  have hdigit : ∀ n, c ∈ Nat.toDigits 10 n → IsDecimal c := by
    intro n hn
    have hc := isDigit_of_mem_toDigits hn
    simp only [Char.isDigit, Bool.and_eq_true, decide_eq_true_eq, UInt32.le_iff_toNat_le] at hc
    exact .inr hc
  cases i with
  | ofNat n => exact hdigit n (by simpa [Int.repr_eq_if] using h)
  | negSucc n =>
    have hc : c = '-' ∨ c ∈ Nat.toDigits 10 (n + 1) := by simpa [Int.repr_eq_if] using h
    rcases hc with rfl | hc
    · exact .inl rfl
    · exact hdigit _ hc

theorem IsDecimal.not_blank {c : Char} (h : IsDecimal c) : isBlank c = false := by
  unfold IsDecimal at h
  simp [isBlank]
  omega

theorem trim_of_not_blank {cs : List Char} (h : ∀ c ∈ cs, isBlank c = false) : trim cs = cs := by
  have hdrop : ∀ l : List Char, (∀ c ∈ l, isBlank c = false) → l.dropWhile isBlank = l := by
    intro l hl
    cases l with
    | nil => rfl
    | cons c l => exact List.dropWhile_cons_of_neg (by simp [hl c List.mem_cons_self])
  rw [trim, hdrop cs h, hdrop _ (fun c hc => h c (List.mem_reverse.mp hc)), List.reverse_reverse]

def decimal (i : Int) : Bytes := utf8Bytes (toString i)

theorem decimal_eq (i : Int) : decimal i = latin1Codes (toString i).toList := by
  apply utf8Bytes_of_ascii
  intro c hc
  have h := isDecimal_of_mem_toString hc
  unfold IsDecimal at h
  omega

theorem notMem_decimal {i : Int} {b : UInt8} (h : b.toNat < 45 ∨ 57 < b.toNat) : b ∉ decimal i := by
  rw [decimal_eq]
  intro hb
  obtain ⟨c, hc, rfl⟩ := List.mem_map.mp hb
  have hdecimal := isDecimal_of_mem_toString hc
  unfold IsDecimal at hdecimal
  rw [UInt8.toNat_ofNat'] at h
  omega

/-- A text that an integer is read from, but that is not written for it, is no decimal text. -/
theorem decimal_ne {limit : Nat} {i : Int} {bs : Bytes} (hi : i.natAbs < limit) (s : String)
    (hs : utf8? bs = some s) (j : Int) (hj : integer? limit s.toList = some j)
    (hne : toString j ≠ s) : decimal i ≠ bs := by
  intro hbs
  rw [← hbs, decimal, utf8?_utf8Bytes] at hs
  obtain rfl := Option.some.inj hs
  rw [integer?_toString hi] at hj
  exact hne (congrArg toString (Option.some.inj hj).symm)

end Text

namespace Value

theorem exists_leaf_ofInt (i : Int) : ∃ l : Leaf, Value.ofInt i = .leaf l := by
  unfold Value.ofInt
  split
  · exact ⟨_, rfl⟩
  · exact ⟨_, rfl⟩

theorem ofInt_natCast {n : Nat} (hn : n < 2 ^ 63) : Value.ofInt n = .int (Int64.ofNat n) := by
  rw [Value.ofInt, if_pos (by omega), Int64.ofInt_eq_ofNat]

end Value

namespace Fetch
open Process

variable {i : Int}

theorem lineInt?_decimal (h : -2 ^ 127 ≤ i ∧ i < 2 ^ 127) :
    lineInt? (Text.decimal i) = some (.ofInt i) := by
  have htrim : Text.trim (toString i).toList = (toString i).toList :=
    Text.trim_of_not_blank fun c hc => (Text.isDecimal_of_mem_toString hc).not_blank
  have hread : Text.integer? (2 ^ 127 + 1) (toString i).toList = some i :=
    Text.integer?_toString (by omega)
  have hwide : isWide i = true := by simpa [isWide] using h
  rw [lineInt?, lineText?, Text.decimal, Text.utf8?_utf8Bytes, Option.map_some, htrim,
    Option.bind_some, hread, Option.filter_some, if_pos hwide, Option.map_some]

/-- No integer is written with a zero before its digits, so that none is taken for a
truth value. -/
theorem lineIntOrBool?_decimal (h : -2 ^ 127 ≤ i ∧ i < 2 ^ 127) :
    lineIntOrBool? (Text.decimal i) = some (.ofInt i) := by
  have hlimit : i.natAbs < 2 ^ 127 + 1 := by omega
  have hfalse : Text.decimal i ≠ [0x30, 0x30] :=
    Text.decimal_ne hlimit "00" (by rfl) 0 (by decide) (by decide)
  have htrue : Text.decimal i ≠ [0x30, 0x31] :=
    Text.decimal_ne hlimit "01" (by rfl) 1 (by decide) (by decide)
  rw [lineIntOrBool?, if_neg hfalse, if_neg htrue, lineInt?_decimal h]

theorem lineLong?_decimal (h : -2 ^ 127 ≤ i ∧ i < 2 ^ 127) :
    lineLong? (Text.decimal i) = some (.ofInt i) := by
  have hletter : ¬ (Text.decimal i).getLast? = some 0x4c := by
    intro hlast
    exact Text.notMem_decimal (by decide) (List.mem_of_getLast? hlast)
  rw [lineLong?, if_neg hletter, lineInt?_decimal h]

theorem lineLong?_decimal_letter (h : -2 ^ 127 ≤ i ∧ i < 2 ^ 127) :
    lineLong? (Text.decimal i ++ [0x4c]) = some (.ofInt i) := by
  rw [lineLong?, if_pos List.getLast?_concat, List.dropLast_concat, lineInt?_decimal h]

theorem long?_of_encodes {bs : Bytes} (hbs : bs.length ≤ 16) (h : Word.Encodes bs i) :
    long? bs = some (.ofInt i) := by
  rw [long?, if_pos hbs, Word.signed_eq_iff.mpr h]

end Fetch

inductive IntegerForm (i : Int) : Opcode → Bytes → Prop where
  | line : IntegerForm i .int (Text.decimal i ++ [0x0a])
  | longLine : IntegerForm i .long (Text.decimal i ++ [0x0a])
  | letterLine : IntegerForm i .long (Text.decimal i ++ [0x4c, 0x0a])
  | counted {bs : Bytes} (hbs : bs.length ≤ 16) (h : Word.Encodes bs i) :
      IntegerForm i .long1 (counted 1 bs)
  | longCounted {bs : Bytes} (hbs : bs.length ≤ 16) (h : Word.Encodes bs i) :
      IntegerForm i .long4 (counted 4 bs)
  | word {bs : Bytes} (hbs : bs.length = 4) (h : Word.Encodes bs i) : IntegerForm i .binInt bs
  | byte (h : 0 ≤ i ∧ i < 2 ^ 8) : IntegerForm i .binInt1 (Word.digits 1 i.toNat)
  | halfWord (h : 0 ≤ i ∧ i < 2 ^ 16) : IntegerForm i .binInt2 (Word.digits 2 i.toNat)

namespace Fetch
open Process

variable {i : Int}

/-- A line that a parser takes is pushed as what the parser gives. -/
theorem start_pushLine (op : Opcode) {parse : Bytes → Option Value} {v : Value} {bs : Bytes}
    (hline : 0x0a ∉ bs) (hparse : parse bs = some v) (p : Nat) (rest : Bytes) :
    (pushLine op parse).start ⟨p, bs ++ 0x0a :: rest⟩ =
      (.ok (.push v), ⟨p + (bs.length + 1), rest⟩) := by
  rw [pushLine, start_bind, start_read_ok (Cursor.line_append p bs rest hline)]
  simp only [hparse, expect]
  rfl

/-- A byte run, however it is read, is pushed as the integer that it writes. -/
theorem start_pushLong (op : Opcode) {run : Process Cursor Bytes} {c c' : Cursor} {bs : Bytes}
    (hrun : run.start c = (.ok bs, c')) (hbs : bs.length ≤ 16) (h : Word.Encodes bs i) :
    (do Instruction.push <$> expect op .tooWide (long? (← run))).start c =
      (.ok (.push (.ofInt i)), c') := by
  rw [start_bind, hrun]
  simp only [long?_of_encodes hbs h, expect]
  rfl

theorem start_i32 {bs : Bytes} (hbs : bs.length = 4) (p : Nat) (rest : Bytes) :
    (Process.read Cursor.i32).start ⟨p, bs ++ rest⟩ =
      (.ok (Int32.ofInt (Word.signed bs)), ⟨p + bs.length, rest⟩) := by
  have htake := Cursor.take_append p bs rest
  rw [hbs] at htake ⊢
  apply start_read_ok
  simp only [Cursor.i32, Cursor.integer, Functor.map, StateT.map, htake, bind, Except.bind, pure,
    Except.pure]

theorem start_word {α : Type} (f : Nat → α) {width n : Nat} (hn : n < 256 ^ width) (p : Nat)
    (rest : Bytes) :
    (Process.read (f <$> Cursor.word width)).start ⟨p, Word.digits width n ++ rest⟩ =
      (.ok (f n), ⟨p + (Word.digits width n).length, rest⟩) := by
  have hword := Cursor.word_digits p width n rest hn
  rw [Word.digits_length]
  apply start_read_ok
  simp only [Functor.map, StateT.map, hword, bind, Except.bind, pure, Except.pure]

/-- A length below 2^31 is not taken for a negative one. -/
theorem start_signedRun (op : Opcode) {bs : Bytes} (hbs : bs.length < 2 ^ 31) (p : Nat)
    (rest : Bytes) :
    (signedRun op).start ⟨p, counted 4 bs ++ rest⟩ =
      (.ok bs, ⟨p + (counted 4 bs).length, rest⟩) := by
  have hlength : Word.signed (Word.digits 4 bs.length) = bs.length := by
    rw [Word.signed_eq_iff]
    refine ⟨?_, ?_, ?_⟩
    · rw [Word.value_digits, Word.digits_length]
      omega
    · rw [Word.digits_length]
      omega
    · rw [Word.digits_length]
      omega
  have hint : (Int32.ofInt bs.length).toInt = bs.length :=
    Int32.toInt_ofInt_of_le (by omega) (by omega)
  have hread := start_i32 (Word.digits_length 4 bs.length) p (bs ++ rest)
  have htake := Cursor.take_append (p + (Word.digits 4 bs.length).length) bs rest
  rw [counted, List.append_assoc, signedRun, start_bind, hread]
  simp only [hlength, hint, Int.toNat_natCast]
  rw [if_neg (by omega), start_read_ok htake, List.length_append, Nat.add_assoc]

/-- Each form of an integer is read as the same instruction. -/
theorem start_integer {op : Opcode} {operands : Bytes} (hi : -2 ^ 127 ≤ i ∧ i < 2 ^ 127)
    (h : IntegerForm i op operands) (offset p : Nat) (rest : Bytes) :
    (instruction offset op).start ⟨p, operands ++ rest⟩ =
      (.ok (.push (.ofInt i)), ⟨p + operands.length, rest⟩) := by
  have hnewline : 0x0a ∉ Text.decimal i := Text.notMem_decimal (by decide)
  cases h with
  | line =>
    have hstart := start_pushLine .int hnewline (lineIntOrBool?_decimal hi) p rest
    rw [instruction, List.append_assoc, List.length_append]
    exact hstart
  | longLine =>
    have hstart := start_pushLine .long hnewline (lineLong?_decimal hi) p rest
    rw [instruction, List.append_assoc, List.length_append]
    exact hstart
  | letterLine =>
    have hletter : 0x0a ∉ Text.decimal i ++ [0x4c] := by simp [hnewline]
    have hstart := start_pushLine .long hletter (lineLong?_decimal_letter hi) p rest
    rw [List.append_assoc, List.length_append] at hstart
    rw [instruction, List.append_assoc, List.length_append]
    exact hstart
  | @counted bs hbs h =>
    have hrun := start_run_counted 1 p rest (show bs.length < 256 ^ 1 by omega)
    rw [instruction]
    exact start_pushLong .long1 hrun hbs h
  | @longCounted bs hbs h =>
    have hrun := start_signedRun .long4 (show bs.length < 2 ^ 31 by omega) p rest
    rw [instruction]
    exact start_pushLong .long4 hrun hbs h
  | word hbs h =>
    have hsigned := Word.signed_eq_iff.mpr h
    obtain ⟨-, hlow, hhigh⟩ := h
    rw [hbs] at hlow hhigh
    have hint : (Int32.ofInt i).toInt64.toInt = i := by
      rw [Int32.toInt_toInt64, Int32.toInt_ofInt_of_le (by omega) (by omega)]
    have hvalue := ofInt_toInt (Int32.ofInt i).toInt64
    rw [hint] at hvalue
    rw [instruction, start_bind, start_i32 hbs, hsigned, hvalue]
    rfl
  | byte h =>
    obtain ⟨n, rfl⟩ := Int.eq_ofNat_of_zero_le h.1
    have hn : n < 256 ^ 1 := by omega
    have hvalue : (UInt8.ofNat n).toNat = n := by
      rw [UInt8.toNat_ofNat']
      exact Nat.mod_eq_of_lt hn
    rw [instruction, start_bind, Int.toNat_natCast, Cursor.u8, start_word UInt8.ofNat hn]
    simp only [hvalue, start_pure]
    rw [Value.ofInt_natCast (by omega)]
  | halfWord h =>
    obtain ⟨n, rfl⟩ := Int.eq_ofNat_of_zero_le h.1
    have hn : n < 256 ^ 2 := by omega
    have hvalue : (UInt16.ofNat n).toNat = n := by
      rw [UInt16.toNat_ofNat']
      exact Nat.mod_eq_of_lt hn
    rw [instruction, start_bind, Int.toNat_natCast, Cursor.u16, start_word UInt16.ofNat hn]
    simp only [hvalue, start_pure]
    rw [Value.ofInt_natCast (by omega)]

end Fetch

namespace Machine
open Process

/-- An integer of up to 128 bits is pushed alike in each of its forms, as one of 64 bits
where those hold it and as a wide one elsewhere, and nothing else changes. It has a form
for every width from its own one up to sixteen bytes, and each byte run of such a width
is read as the one integer that it writes. -/
theorem integer_forms_agree {i : Int} (hi : -2 ^ 127 ≤ i ∧ i < 2 ^ 127) (r : Registry) :
    (∀ op operands, IntegerForm i op operands → ∀ (m : Machine) (p : Nat) (rest : Bytes),
      (next r).start (m.facing p (op.code :: (operands ++ rest))) =
        (.ok none, { m with stack := holding (.ofInt i) :: m.stack }.facing
          (p + 1 + operands.length) rest)) ∧
    (∀ j : Int64, j.toInt = i → Value.ofInt i = .int j) ∧
    (¬(-2 ^ 63 ≤ i ∧ i < 2 ^ 63) → Value.ofInt i = .bigInt i) ∧
    (∀ width, Word.signedWidth i ≤ width → ∃ bs, bs.length = width ∧ Word.Encodes bs i) ∧
    Word.signedWidth i ≤ 16 ∧
    (∀ bs : Bytes, bs.length ≤ 16 →
      ∃ j, (∀ k, Word.Encodes bs k ↔ k = j) ∧ Fetch.long? bs = some (.ofInt j)) := by
  refine ⟨?_, ?_, ?_, fun width => Word.exists_encodes, Word.signedWidth_le (n := 15) hi, ?_⟩
  · intro op operands h m p rest
    have hfetch := Fetch.start_integer hi h p (p + 1) rest
    obtain ⟨l, hl⟩ := Value.exists_leaf_ofInt i
    rw [hl] at hfetch ⊢
    rw [start_next m hfetch (by simp), step, start_push _ (Nat.zero_le _), holding,
      Value.nesting_leaf]
    rfl
  · rintro j rfl
    exact ofInt_toInt j
  · intro hwide
    exact if_neg hwide
  · intro bs hbs
    refine ⟨Word.signed bs, ?_, if_pos hbs⟩
    intro k
    rw [← Word.signed_eq_iff, eq_comm]

theorem integer_forms_agree_beyond_words :
    (-2 ^ 127 ≤ (2 ^ 63 : Int) ∧ (2 ^ 63 : Int) < 2 ^ 127) ∧
    ¬(-2 ^ 63 ≤ (2 ^ 63 : Int) ∧ (2 ^ 63 : Int) < 2 ^ 63) ∧
    IntegerForm (2 ^ 63) .long1 (counted 1 [0, 0, 0, 0, 0, 0, 0, 0x80, 0]) ∧
    (next .standard).start ((ofBytes []).facing 0
        (Opcode.long1.code :: (counted 1 [0, 0, 0, 0, 0, 0, 0, 0x80, 0] ++ [0x2e]))) =
      (.ok none, { ofBytes [] with stack := [holding (.bigInt (2 ^ 63))] }.facing 11 [0x2e]) := by
  have hrange : -2 ^ 127 ≤ (2 ^ 63 : Int) ∧ (2 ^ 63 : Int) < 2 ^ 127 := by decide
  have hwide : ¬(-2 ^ 63 ≤ (2 ^ 63 : Int) ∧ (2 ^ 63 : Int) < 2 ^ 63) := by decide
  have hform : IntegerForm (2 ^ 63) .long1 (counted 1 [0, 0, 0, 0, 0, 0, 0, 0x80, 0]) :=
    .counted (by decide) ⟨by decide, by decide, by decide⟩
  obtain ⟨hpush, -, hbig, -⟩ := integer_forms_agree hrange .standard
  have hrun := hpush .long1 _ hform (ofBytes []) 0 [0x2e]
  rw [hbig hwide] at hrun
  exact ⟨hrange, hwide, hform, hrun⟩

end Machine

end PickledModel
