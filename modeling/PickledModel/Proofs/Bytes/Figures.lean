import Mathlib.Algebra.Ring.Int.Defs
import Mathlib.Algebra.Ring.Nat
import PickledModel.Proofs.Bytes.Relocation

/-! Numbers of a fixed width. The bytes of a number read back as that number, and bytes
of the width of a form are those of the number that they read as. -/

set_option autoImplicit false

namespace PickledModel

inductive Figure where
  | u8 (n : UInt8)
  | u16 (n : UInt16)
  | u32 (n : UInt32)
  | u64 (n : UInt64)
  | i32 (i : Int32)
  | i64 (i : Int64)
  | f32 (x : Binary32)
  | f64 (x : Binary64)
  | f64BigEndian (x : Binary64)
  deriving DecidableEq, Repr

namespace Figure

inductive Form where
  | u8 | u16 | u32 | u64 | i32 | i64 | f32 | f64 | f64BigEndian
  deriving DecidableEq, Repr

def form : Figure → Form
  | .u8 _ => .u8
  | .u16 _ => .u16
  | .u32 _ => .u32
  | .u64 _ => .u64
  | .i32 _ => .i32
  | .i64 _ => .i64
  | .f32 _ => .f32
  | .f64 _ => .f64
  | .f64BigEndian _ => .f64BigEndian

/-- The bytes of a number, the least significant one first but for the last form;
integers are in two's complement, and floats are written by their bits. -/
def digits : Figure → Bytes
  | .u8 n => Word.digits 1 n.toNat
  | .u16 n => Word.digits 2 n.toNat
  | .u32 n => Word.digits 4 n.toNat
  | .u64 n => Word.digits 8 n.toNat
  | .i32 i => Word.digits 4 (i.toInt % (256 ^ 4 : Nat)).toNat
  | .i64 i => Word.digits 8 (i.toInt % (256 ^ 8 : Nat)).toNat
  | .f32 x => Word.digits 4 x.bits.toNat
  | .f64 x => Word.digits 8 x.bits.toNat
  | .f64BigEndian x => (Word.digits 8 x.bits.toNat).reverse

namespace Form

def width : Form → Nat
  | .u8 => 1
  | .u16 => 2
  | .u32 | .i32 | .f32 => 4
  | .u64 | .i64 | .f64 | .f64BigEndian => 8

def read : Form → Read Figure
  | .u8 => .u8 <$> Cursor.u8
  | .u16 => .u16 <$> Cursor.u16
  | .u32 => .u32 <$> Cursor.u32
  | .u64 => .u64 <$> Cursor.u64
  | .i32 => .i32 <$> Cursor.i32
  | .i64 => .i64 <$> Cursor.i64
  | .f32 => .f32 <$> Cursor.f32
  | .f64 => .f64 <$> Cursor.f64
  | .f64BigEndian => .f64BigEndian <$> Cursor.f64BigEndian

def ofBytes : Form → Bytes → Figure
  | .u8, bs => .u8 (UInt8.ofNat (Word.value bs))
  | .u16, bs => .u16 (UInt16.ofNat (Word.value bs))
  | .u32, bs => .u32 (UInt32.ofNat (Word.value bs))
  | .u64, bs => .u64 (UInt64.ofNat (Word.value bs))
  | .i32, bs => .i32 (Int32.ofInt (Word.signed bs))
  | .i64, bs => .i64 (Int64.ofInt (Word.signed bs))
  | .f32, bs => .f32 ⟨UInt32.ofNat (Word.value bs)⟩
  | .f64, bs => .f64 ⟨UInt64.ofNat (Word.value bs)⟩
  | .f64BigEndian, bs => .f64BigEndian ⟨UInt64.ofNat (Word.value bs.reverse)⟩

theorem read_eq (f : Form) : f.read = f.ofBytes <$> Cursor.take f.width := by
  cases f <;> simp only [read, Cursor.u8, Cursor.u16, Cursor.u32, Cursor.u64, Cursor.i32,
    Cursor.i64, Cursor.f32, Cursor.f64, Cursor.f64BigEndian, Cursor.word, Cursor.integer,
    Functor.map_map] <;> rfl

theorem form_ofBytes (f : Form) (bs : Bytes) : (f.ofBytes bs).form = f := by
  cases f <;> rfl

end Form

theorem digits_length (x : Figure) : x.digits.length = x.form.width := by
  cases x <;> simp [digits, form, Form.width]

theorem ofBytes_digits (x : Figure) : x.form.ofBytes x.digits = x := by
  have hvalue : ∀ {width n : Nat}, n < 256 ^ width → Word.value (Word.digits width n) = n :=
    fun h => (Word.value_digits _ _).trans (Nat.mod_eq_of_lt h)
  cases x with
  | u8 n | u16 n | u32 n | u64 n =>
    have hn := n.toNat_lt
    simp only [form, digits, Form.ofBytes]
    rw [hvalue (by omega)]
    simp
  | i32 i | i64 i =>
    have hlow := i.le_toInt
    have hhigh := i.toInt_lt
    simp only [form, digits, Form.ofBytes]
    rw [Word.signed_digits (by omega) (by omega)]
    simp
  | f32 x | f64 x =>
    have hx := x.bits.toNat_lt
    simp only [form, digits, Form.ofBytes]
    rw [hvalue (by omega)]
    simp
  | f64BigEndian x =>
    have hx := x.bits.toNat_lt
    simp only [form, digits, Form.ofBytes, List.reverse_reverse]
    rw [hvalue (by omega)]
    simp

theorem digits_ofBytes {f : Form} {bs : Bytes} (h : bs.length = f.width) :
    (f.ofBytes bs).digits = bs := by
  have hvalue := Word.value_lt bs
  have hdigits := Word.digits_value bs
  have hsigned := Word.digits_signed bs
  obtain ⟨hlow, hhigh⟩ := Word.signed_range bs
  cases f with
  | u8 | u16 | u32 | u64 | f32 | f64 =>
    simp only [Form.width] at h
    rw [h] at hvalue hdigits
    simp only [Form.ofBytes, digits]
    simp [Nat.mod_eq_of_lt (by simpa using hvalue), hdigits]
  | i32 =>
    simp only [Form.width] at h
    rw [h] at hlow hhigh hsigned
    simp only [Form.ofBytes, digits]
    rw [Int32.toInt_ofInt_of_le (by omega) (by omega)]
    exact hsigned
  | i64 =>
    simp only [Form.width] at h
    rw [h] at hlow hhigh hsigned
    simp only [Form.ofBytes, digits]
    rw [Int64.toInt_ofInt_of_le (by omega) (by omega)]
    exact hsigned
  | f64BigEndian =>
    have hvalue' := Word.value_lt bs.reverse
    have hdigits' := Word.digits_value bs.reverse
    simp only [Form.width] at h
    rw [List.length_reverse, h] at hvalue' hdigits'
    simp only [Form.ofBytes, digits]
    simp [Nat.mod_eq_of_lt (by simpa using hvalue'), hdigits']

end Figure

section
variable {α β : Type} {r : Read α} {c e : Cursor}

theorem Read.bind_eq_ok_iff {f : α → Read β} {b : β} :
    (r >>= f) c = .ok (b, e) ↔ ∃ a d, r c = .ok (a, d) ∧ f a d = .ok (b, e) := by
  change (do let (a, c) ← r c; f a c : Except Shortage _) = _ ↔ _
  rcases r c with s | ⟨a, d⟩
  · constructor
    · rintro ⟨⟩
    · rintro ⟨a, d, ⟨⟩, -⟩
  · constructor
    · exact fun h => ⟨a, d, rfl, h⟩
    · rintro ⟨_, _, ⟨⟩, h⟩
      exact h

theorem Read.map_eq_ok_iff {f : α → β} {b : β} :
    (f <$> r) c = .ok (b, e) ↔ ∃ a, r c = .ok (a, e) ∧ f a = b := by
  rw [← bind_pure_comp, bind_eq_ok_iff]
  constructor
  · rintro ⟨a, d, ha, ⟨⟩⟩
    exact ⟨a, ha, rfl⟩
  · rintro ⟨a, ha, rfl⟩
    exact ⟨a, e, ha, rfl⟩
end

theorem Figure.Form.read_eq_ok_iff {f : Form} {c c' : Cursor} {x : Figure} :
    f.read c = .ok (x, c') ↔ x.form = f ∧ Cursor.Over x.digits c c' := by
  rw [read_eq, Read.map_eq_ok_iff]
  constructor
  · rintro ⟨bs, htake, rfl⟩
    obtain ⟨hrest, hlength, hposition⟩ := Cursor.take_eq_ok_iff.mp htake
    refine ⟨f.form_ofBytes bs, ?_⟩
    rw [digits_ofBytes hlength]
    exact ⟨hrest, hlength ▸ hposition⟩
  · rintro ⟨rfl, hover⟩
    refine ⟨x.digits, Cursor.take_eq_ok_iff.mpr ⟨hover.rest, x.digits_length, ?_⟩, x.ofBytes_digits⟩
    rw [hover.position, x.digits_length]

end PickledModel
