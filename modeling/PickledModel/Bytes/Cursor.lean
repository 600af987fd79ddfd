import PickledModel.Bytes.Word
import PickledModel.Number.Binary

/-!
# Byte cursors

A cursor is a position and the bytes from there on. A read gives a value and the
cursor after the bytes it took, or the shortage that stopped it; having no
cursor to give in that case, a failed read cannot move one. Each kind of read
gives back what was written, whatever follows it.
-/

set_option autoImplicit false

namespace PickledModel
open scoped Natural

/-- A position in a byte run, and the bytes from there to its end. -/
structure Cursor where
  position : Nat
  rest : Bytes
  deriving DecidableEq, Repr, Inhabited

structure Shortage where
  offset : Nat
  needed : Nat
  available : Nat
  deriving DecidableEq, Repr

def Shortage.message (s : Shortage) : String :=
  s!"unexpected end of stream at offset {s.offset}: needed {s.needed} bytes, {s.available} available"

abbrev Read := StateT Cursor (Except Shortage)

namespace Cursor

def ofBytes (bs : Bytes) : Cursor := ⟨0, bs⟩

def size (c : Cursor) : Nat := c.rest.length

def atEnd (c : Cursor) : Bool := c.rest.isEmpty

def peek? (c : Cursor) : Option UInt8 := c.rest.head?

/-- The next bytes, at most `max` of them. Positions are 64-bit words, and a
window whose end is none has no bytes to give. -/
def lookahead? (c : Cursor) (max : Nat) : Option Bytes :=
  if c.position + max < 2 ^ (64 : Nat) then some (c.rest.take max) else none

def take (n : Nat) : Read Bytes := fun c =>
  let run := c.rest.take n
  if run.length = n then .ok (run, ⟨c.position + n, c.rest.drop n⟩)
  else .error ⟨c.position, n, c.rest.length⟩

def skip (n : Nat) : Read Unit := do let _ ← take n

/-- The bytes before the next newline, which is taken with them. -/
def line : Read Bytes := fun c =>
  let run := c.rest.takeWhile (· != 0x0a)
  match c.rest.drop run.length with
  | _ :: rest => .ok (run, ⟨c.position + run.length + 1, rest⟩)
  | [] => .error ⟨c.position, run.length + 1, run.length⟩

def word (width : Nat) : Read Nat := Word.value <$> take width

def integer (width : Nat) : Read Int := Word.signed <$> take width

def u8 : Read UInt8 := UInt8.ofNat <$> word 1
def u16 : Read UInt16 := UInt16.ofNat <$> word 2
def u32 : Read UInt32 := UInt32.ofNat <$> word 4
def u64 : Read UInt64 := UInt64.ofNat <$> word 8
def i32 : Read Int32 := Int32.ofInt <$> integer 4
def i64 : Read Int64 := Int64.ofInt <$> integer 8
def f32 : Read Binary32 := (⟨UInt32.ofNat ·⟩) <$> word 4
def f64 : Read Binary64 := (⟨UInt64.ofNat ·⟩) <$> word 8

def f64BigEndian : Read Binary64 :=
  (fun bs => ⟨UInt64.ofNat (Word.value bs.reverse)⟩) <$> take 8

def run (width : Nat) : Read Bytes := do take (← word width)

theorem take_eq_ok_iff {n : Nat} {c c' : Cursor} {bs : Bytes} :
    take n c = .ok (bs, c') ↔
      c.rest = bs ++ c'.rest ∧ bs.length = n ∧ c'.position = c.position + n := by
  obtain ⟨p, rest⟩ := c
  obtain ⟨p', rest'⟩ := c'
  simp only [take]
  constructor
  · split
    · next h =>
      simp only [Except.ok.injEq, Prod.mk.injEq, Cursor.mk.injEq]
      rintro ⟨rfl, rfl, rfl⟩
      exact ⟨(List.take_append_drop n rest).symm, h, rfl⟩
    · simp
  · rintro ⟨rfl, rfl, rfl⟩
    simp

theorem take_error {n : Nat} {c : Cursor} (h : c.size < n) :
    take n c = .error ⟨c.position, n, c.size⟩ := by
  simp only [size] at h
  simp only [take, List.length_take, size]
  rw [if_neg (by omega)]

theorem take_append (p : Nat) (bs rest : Bytes) :
    take bs.length ⟨p, bs ++ rest⟩ = .ok (bs, ⟨p + bs.length, rest⟩) := by
  rw [take_eq_ok_iff]
  exact ⟨rfl, rfl, rfl⟩

/-- A word reads back from its digits. -/
theorem word_digits (p width n : Nat) (rest : Bytes) (h : n < 256 ^ width) :
    word width ⟨p, Word.digits width n ++ rest⟩ = .ok (n, ⟨p + width, rest⟩) := by
  have ht := take_append p (Word.digits width n) rest
  rw [Word.digits_length] at ht
  change (do let (bs, c) ← take width _; pure (Word.value bs, c) : Except Shortage _) = _
  rw [ht]
  exact congrArg (fun k => Except.ok (k, _)) (by rw [Word.value_digits, Nat.mod_eq_of_lt h])

/-- A run reads back from its length and its bytes. -/
theorem run_append (p width : Nat) (bs rest : Bytes) (h : bs.length < 256 ^ width) :
    run width ⟨p, Word.digits width bs.length ++ (bs ++ rest)⟩ =
      .ok (bs, ⟨p + width + bs.length, rest⟩) := by
  change (do let (n, c) ← word width _; take n c : Except Shortage _) = _
  rw [word_digits p width bs.length (bs ++ rest) h]
  exact take_append (p + width) bs rest

/-- A line reads back from its bytes and a newline. -/
theorem line_append (p : Nat) (bs rest : Bytes) (h : 0x0a ∉ bs) :
    line ⟨p, bs ++ 0x0a :: rest⟩ = .ok (bs, ⟨p + bs.length + 1, rest⟩) := by
  have all : ∀ b ∈ bs, (b != 0x0a) = true := by
    intro b hb
    have : b ≠ 0x0a := by
      rintro rfl
      exact h hb
    simpa using this
  simp [line, List.takeWhile_append_of_pos all]

end Cursor

end PickledModel
