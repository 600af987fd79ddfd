import Mathlib.Algebra.Ring.Int.Defs
import Mathlib.Algebra.Ring.Nat
import PickledModel.Proofs.Value.Slots
import PickledModel.Stream.Instruction

/-! Plain values written as a stream that uses no memo. A leaf is one opcode
with its operands; a container is a mark, its contents and the opcode that
gathers them. Each operand reads back as what was written, whatever follows. -/

set_option autoImplicit false

namespace PickledModel

namespace Word

def magnitude (i : Int) : Nat := (if 0 ≤ i then i else -i - 1).toNat

theorem magnitude_lt_iff {i : Int} {n : Nat} : magnitude i < n ↔ -n ≤ i ∧ i < n := by
  unfold magnitude
  by_cases hi : 0 ≤ i
  · rw [if_pos hi]
    omega
  · rw [if_neg hi]
    omega

def signedWidth (i : Int) : Nat := (2 * magnitude i).log2 / 8 + 1

def signedDigits (i : Int) : Bytes :=
  digits (signedWidth i) (i % (256 ^ signedWidth i : Nat)).toNat

@[simp] theorem signedDigits_length (i : Int) : (signedDigits i).length = signedWidth i :=
  digits_length _ _

theorem signedWidth_range (i : Int) :
    -(256 ^ signedWidth i : Nat) ≤ i * 2 ∧ i * 2 < (256 ^ signedWidth i : Nat) := by
  have hbits : 2 * magnitude i < 2 ^ ((2 * magnitude i).log2 + 1) := Nat.lt_log2_self
  have hwidth : (2 * magnitude i).log2 + 1 ≤ 8 * signedWidth i := by
    rw [signedWidth]
    omega
  have hpow := Nat.pow_le_pow_right (show 0 < 2 by decide) hwidth
  have hbase : 2 ^ (8 * signedWidth i) = 256 ^ signedWidth i := by rw [Nat.pow_mul]
  have heven : 256 ^ signedWidth i = 2 * (128 * 256 ^ ((2 * magnitude i).log2 / 8)) := by
    rw [signedWidth, Nat.pow_succ]
    omega
  have hi := magnitude_lt_iff.mp (show magnitude i < 128 * 256 ^ ((2 * magnitude i).log2 / 8) by omega)
  omega

theorem signed_signedDigits (i : Int) : signed (signedDigits i) = i :=
  signed_digits (signedWidth_range i).1 (signedWidth_range i).2

theorem signedWidth_le {i : Int} {n : Nat} (h : -2 ^ (8 * n + 7) ≤ i ∧ i < 2 ^ (8 * n + 7)) :
    signedWidth i ≤ n + 1 := by
  have hm : magnitude i < 2 ^ (8 * n + 7) := magnitude_lt_iff.mpr (by simpa using h)
  have hlog : (2 * magnitude i).log2 < 8 * n + 8 := by
    by_cases h0 : 2 * magnitude i = 0
    · rw [h0, Nat.log2_zero]
      omega
    · rw [Nat.log2_lt h0, Nat.pow_succ]
      omega
  rw [signedWidth]
  omega

end Word

def splitLastDot (cs : List Char) : List Char × List Char :=
  (((cs.reverse.dropWhile (· != '.')).drop 1).reverse, (cs.reverse.takeWhile (· != '.')).reverse)

theorem splitLastDot_append {cs : List Char} (h : '.' ∈ cs) :
    (splitLastDot cs).1 ++ '.' :: (splitLastDot cs).2 = cs := by
  have hsplit := List.takeWhile_append_dropWhile (p := (· != '.')) (l := cs.reverse)
  cases hd : cs.reverse.dropWhile (· != '.') with
  | nil =>
    have hany := List.any_dropWhile (p := (· != '.')) (l := cs.reverse)
    rw [hd] at hany
    have hall : ∀ c ∈ cs, ¬c = '.' := by simpa using hany
    exact absurd rfl (hall '.' h)
  | cons c tail =>
    have hc := List.head?_dropWhile_not (· != '.') cs.reverse
    rw [hd] at hc hsplit
    have hdot : c = '.' := by simpa using hc
    rw [splitLastDot, hd]
    have hrev := congrArg List.reverse hsplit
    simpa [hdot] using hrev

def latin1Codes (cs : List Char) : Bytes := cs.map fun c => UInt8.ofNat c.toNat

theorem latin1_latin1Codes {cs : List Char} (h : ∀ c ∈ cs, c.toNat < 256) :
    Text.latin1 (latin1Codes cs) = String.ofList cs := by
  rw [Text.latin1, latin1Codes, List.map_map]
  congr 1
  conv => rhs; rw [← List.map_id cs]
  apply List.map_congr_left
  intro c hc
  have hcode : (UInt8.ofNat c.toNat).toNat = c.toNat := by
    rw [UInt8.toNat_ofNat']
    exact Nat.mod_eq_of_lt (h c hc)
  simp only [Function.comp, Text.latin1Char, hcode, id]
  exact Char.ofNat_toNat c

theorem newline_not_mem_latin1Codes {cs : List Char} (h : ∀ c ∈ cs, c.toNat < 256 ∧ c ≠ '\n') :
    0x0a ∉ latin1Codes cs := by
  intro hmem
  obtain ⟨c, hc, hcode⟩ := List.mem_map.mp hmem
  obtain ⟨hlt, hne⟩ := h c hc
  have hnat := congrArg UInt8.toNat hcode
  rw [UInt8.toNat_ofNat', Nat.mod_eq_of_lt hlt] at hnat
  apply hne
  rw [← Char.ofNat_toNat c, hnat]
  rfl

def counted (width : Nat) (bs : Bytes) : Bytes := Word.digits width bs.length ++ bs

def Leaf.encode : Leaf → Bytes
  | .none => [Opcode.pushNone.code]
  | .bool true => [Opcode.newTrue.code]
  | .bool false => [Opcode.newFalse.code]
  | .int i => Opcode.long1.code :: counted 1 (Word.signedDigits i.toInt)
  | .bigInt i => Opcode.long1.code :: counted 1 (Word.signedDigits i)
  | .float x => Opcode.binFloat.code :: (Word.digits 8 x.bits.toNat).reverse
  | .str s => Opcode.binUnicode8.code :: counted 8 (Text.utf8Bytes s)
  | .bytes bs => Opcode.binBytes8.code :: counted 8 bs
  | .global name => Opcode.global.code ::
      (latin1Codes (splitLastDot name.toList).1 ++ 0x0a ::
        (latin1Codes (splitLastDot name.toList).2 ++ [0x0a]))

/-- What stands before the contents of a value: all of a leaf, and a mark, after
an empty container where the contents are added to one. -/
def Value.opening : Value → Bytes
  | .leaf l => l.encode
  | .list _ => [Opcode.emptyList.code, Opcode.mark.code]
  | .set _ => [Opcode.emptySet.code, Opcode.mark.code]
  | .dict _ => [Opcode.emptyDict.code, Opcode.mark.code]
  | _ => [Opcode.mark.code]

def Value.closing : Value → Bytes
  | .list _ => [Opcode.appends.code]
  | .tuple _ => [Opcode.tuple.code]
  | .set _ => [Opcode.addItems.code]
  | .frozenSet _ => [Opcode.frozenSet.code]
  | .dict _ => [Opcode.setItems.code]
  | _ => []

def Value.encode (v : Value) : Bytes :=
  v.opening ++ (v.children.attach.flatMap fun ⟨c, _⟩ => encode c) ++ v.closing
termination_by sizeOf v
decreasing_by exact sizeOf_lt_of_mem_children ‹_›

theorem Value.encode_eq (v : Value) :
    v.encode = v.opening ++ (v.children.flatMap encode ++ v.closing) := by
  rw [encode, List.append_assoc]
  congr 2
  conv => rhs; rw [← List.attach_map_subtype_val v.children, List.flatMap_map]

example : (Value.dict [(.str "a", .list [.int (-129), .none])]).encode =
    [0x7d, 0x28, 0x8d, 1, 0, 0, 0, 0, 0, 0, 0, 0x61, 0x5d, 0x28, 0x8a, 2, 0x7f, 0xff, 0x4e,
      0x65, 0x75] := by
  simp only [Value.encode_eq, Value.opening, Value.closing, Value.children, List.flatMap_cons,
    List.flatMap_nil, List.cons_append, List.nil_append, List.append_nil]
  decide

def Leaf.Plain : Leaf → Prop
  | .bigInt i => ¬(-2 ^ 63 ≤ i ∧ i < 2 ^ 63) ∧ -2 ^ 127 ≤ i ∧ i < 2 ^ 127
  | .str s => (Text.utf8Bytes s).length < 2 ^ 64
  | .bytes bs => bs.length < 2 ^ 64
  | .global name => '.' ∈ name.toList ∧ ∀ c ∈ name.toList, c.toNat < 256 ∧ c ≠ '\n'
  | _ => True

theorem ofInt_toInt (i : Int64) : Value.ofInt i.toInt = .int i := by
  have hlow := i.le_toInt
  have hhigh := i.toInt_lt
  rw [Value.ofInt, if_pos ⟨hlow, hhigh⟩, Int64.ofInt_toInt]

namespace Fetch
open Process

theorem start_run_counted (width : Nat) {bs : Bytes} (p : Nat) (rest : Bytes)
    (h : bs.length < 256 ^ width) :
    (Process.read (Cursor.run width)).start ⟨p, counted width bs ++ rest⟩ =
      (.ok bs, ⟨p + (counted width bs).length, rest⟩) := by
  have hrun := Cursor.run_append p width bs rest h
  rw [counted, List.append_assoc, start_read_ok hrun]
  simp [Nat.add_assoc]

theorem start_long1 {i : Int} (offset p : Nat) (rest : Bytes) (h : -2 ^ 127 ≤ i ∧ i < 2 ^ 127) :
    (instruction offset .long1).start ⟨p, counted 1 (Word.signedDigits i) ++ rest⟩ =
      (.ok (.push (.ofInt i)), ⟨p + (counted 1 (Word.signedDigits i)).length, rest⟩) := by
  have hwidth : (Word.signedDigits i).length ≤ 16 := by
    rw [Word.signedDigits_length]
    exact Word.signedWidth_le (n := 15) h
  have hlong : long? (Word.signedDigits i) = some (.ofInt i) := by
    rw [long?, if_pos hwidth, Word.signed_signedDigits]
  have hread := start_run_counted 1 p rest (show (Word.signedDigits i).length < 256 ^ 1 by omega)
  rw [instruction, start_bind, hread]
  simp only [hlong, expect]
  rfl

theorem start_f64BigEndian (x : Binary64) (p : Nat) (rest : Bytes) :
    (Process.read Cursor.f64BigEndian).start ⟨p, (Word.digits 8 x.bits.toNat).reverse ++ rest⟩ =
      (.ok x, ⟨p + (Word.digits 8 x.bits.toNat).reverse.length, rest⟩) := by
  have htake := Cursor.take_append p (Word.digits 8 x.bits.toNat).reverse rest
  have hlength : (Word.digits 8 x.bits.toNat).reverse.length = 8 := by simp
  have hbits : x.bits.toNat < 256 ^ 8 := x.bits.toNat_lt
  rw [hlength] at htake ⊢
  have hvalue : (⟨UInt64.ofNat (Word.value (Word.digits 8 x.bits.toNat).reverse.reverse)⟩ :
      Binary64) = x := by
    rw [List.reverse_reverse, Word.value_digits, Nat.mod_eq_of_lt hbits, UInt64.ofNat_toNat]
  apply start_read_ok
  simp only [Cursor.f64BigEndian, Functor.map, StateT.map, htake, bind, Except.bind, pure,
    Except.pure, hvalue]

def globalLines (module_ name : Bytes) : Bytes := module_ ++ 0x0a :: (name ++ [0x0a])

def dotted (module_ name : Bytes) : String := Text.latin1 module_ ++ "." ++ Text.latin1 name

theorem start_globalLines {module_ name : Bytes} (hm : 0x0a ∉ module_) (hn : 0x0a ∉ name) (p : Nat)
    (rest : Bytes) : globalName.start ⟨p, globalLines module_ name ++ rest⟩ =
      (.ok (dotted module_ name), ⟨p + (globalLines module_ name).length, rest⟩) := by
  have hlines : globalLines module_ name ++ rest = module_ ++ 0x0a :: (name ++ 0x0a :: rest) := by
    simp only [globalLines, List.append_assoc, List.cons_append, List.nil_append]
  have hlength : p + (globalLines module_ name).length =
      p + module_.length + 1 + name.length + 1 := by
    simp only [globalLines, List.length_append, List.length_cons, List.length_nil]
    omega
  have hline := Cursor.line_append p module_ (name ++ 0x0a :: rest) hm
  have hline' := Cursor.line_append (p + module_.length + 1) name rest hn
  rw [hlines, hlength, globalName, start_bind, start_read_ok hline]
  dsimp only
  rw [start_bind, start_read_ok hline']
  rfl

theorem dotted_latin1Codes {m n : List Char} (hm : ∀ c ∈ m, c.toNat < 256)
    (hn : ∀ c ∈ n, c.toNat < 256) :
    dotted (latin1Codes m) (latin1Codes n) = String.ofList (m ++ '.' :: n) := by
  rw [dotted, latin1_latin1Codes hm, latin1_latin1Codes hn]
  apply String.ext
  simp

theorem start_globalName {m n : List Char} (p : Nat) (rest : Bytes)
    (hm : ∀ c ∈ m, c.toNat < 256 ∧ c ≠ '\n') (hn : ∀ c ∈ n, c.toNat < 256 ∧ c ≠ '\n') :
    globalName.start ⟨p, latin1Codes m ++ 0x0a :: (latin1Codes n ++ 0x0a :: rest)⟩ =
      (.ok (String.ofList (m ++ '.' :: n)),
        ⟨p + (latin1Codes m ++ 0x0a :: (latin1Codes n ++ [0x0a])).length, rest⟩) := by
  have hlines := start_globalLines (newline_not_mem_latin1Codes hm)
    (newline_not_mem_latin1Codes hn) p rest
  rw [dotted_latin1Codes (fun c hc => (hm c hc).1) fun c hc => (hn c hc).1] at hlines
  simpa only [globalLines, List.append_assoc, List.cons_append, List.nil_append] using hlines

theorem start_leaf {l : Leaf} (hl : l.Plain) (offset p : Nat) (rest : Bytes) :
    ∃ op operands, l.encode = op.code :: operands ∧
      (instruction offset op).start ⟨p, operands ++ rest⟩ =
        (.ok (.push (.leaf l)), ⟨p + operands.length, rest⟩) := by
  cases l with
  | none => exact ⟨.pushNone, [], rfl, rfl⟩
  | bool b =>
    cases b with
    | true => exact ⟨.newTrue, [], rfl, rfl⟩
    | false => exact ⟨.newFalse, [], rfl, rfl⟩
  | int i =>
    refine ⟨.long1, _, rfl, ?_⟩
    have hlow := i.le_toInt
    have hhigh := i.toInt_lt
    rw [start_long1 offset p rest (by omega), ofInt_toInt]
  | bigInt i =>
    refine ⟨.long1, _, rfl, ?_⟩
    rw [start_long1 offset p rest hl.2, Value.ofInt, if_neg hl.1]
  | float x =>
    refine ⟨.binFloat, _, rfl, ?_⟩
    rw [instruction, start_bind, start_f64BigEndian]
    rfl
  | str s =>
    refine ⟨.binUnicode8, _, rfl, ?_⟩
    have hread := start_run_counted 8 p rest (show (Text.utf8Bytes s).length < 256 ^ 8 by exact hl)
    rw [instruction, pushText, start_bind, hread]
    simp only [Text.utf8?_utf8Bytes, expect]
    rfl
  | bytes bs =>
    refine ⟨.binBytes8, _, rfl, ?_⟩
    have hread := start_run_counted 8 p rest (show bs.length < 256 ^ 8 by exact hl)
    rw [instruction, pushBytes, start_bind, hread]
    rfl
  | global name =>
    refine ⟨.global, _, rfl, ?_⟩
    obtain ⟨hdot, hchars⟩ := hl
    have hname := splitLastDot_append hdot
    have hparts : (∀ c ∈ (splitLastDot name.toList).1, c.toNat < 256 ∧ c ≠ '\n') ∧
        ∀ c ∈ (splitLastDot name.toList).2, c.toNat < 256 ∧ c ≠ '\n' := by
      constructor
      · intro c hc
        exact hchars c (hname ▸ List.mem_append_left _ hc)
      · intro c hc
        exact hchars c (hname ▸ List.mem_append_right _ (List.mem_cons_of_mem _ hc))
    have hread := start_globalName p rest hparts.1 hparts.2
    rw [hname, String.ofList_toList] at hread
    rw [instruction, start_bind]
    simp only [List.append_assoc, List.cons_append, List.nil_append]
    rw [hread]
    rfl

end Fetch

/-- Values without objects, in which no dict has two equal keys and no set two equal items. -/
inductive Value.Plain : Value → Prop
  | leaf {l : Leaf} : l.Plain → Plain (.leaf l)
  | list {items : List Value} : (∀ v ∈ items, Plain v) → Plain (.list items)
  | tuple {items : List Value} : (∀ v ∈ items, Plain v) → Plain (.tuple items)
  | set {items : List Value} : (∀ v ∈ items, Plain v) →
      items.Pairwise (fun a b => a.equal b = false) → Plain (.set items)
  | frozenSet {items : List Value} : (∀ v ∈ items, Plain v) →
      items.Pairwise (fun a b => a.equal b = false) → Plain (.frozenSet items)
  | dict {entries : List (Value × Value)} : (∀ e ∈ entries, Plain e.1) →
      (∀ e ∈ entries, Plain e.2) →
      entries.Pairwise (fun a b => a.1.equal b.1 = false) → Plain (.dict entries)

end PickledModel
