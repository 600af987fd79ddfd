import PickledModel.Bytes.Word

/-!
# Character encodings

Latin-1 and UTF-8 readings of byte runs. The main statements are that reading
undoes writing: any byte run is the Latin-1 form of its Latin-1 text, and a byte
run reads as a text exactly if it is the UTF-8 form of that text.
-/

set_option autoImplicit false

namespace PickledModel.Text

def latin1Char (b : UInt8) : Char := Char.ofNat b.toNat

def latin1 (bs : Bytes) : String := String.ofList (bs.map latin1Char)

def latin1Byte? (c : Char) : Option UInt8 :=
  if c.toNat < 256 then some (UInt8.ofNat c.toNat) else none

def latin1Bytes? (s : String) : Option Bytes := s.toList.mapM latin1Byte?

def utf8Bytes (s : String) : Bytes := s.toUTF8.data.toList

def utf8? (bs : Bytes) : Option String := String.fromUTF8? bs.toByteArray

theorem latin1Byte?_latin1Char (b : UInt8) : latin1Byte? (latin1Char b) = some b := by
  have hb := b.toNat_lt
  have hv : (latin1Char b).toNat = b.toNat := by
    have : b.toNat.isValidChar := Or.inl (by omega)
    rw [latin1Char, Char.ofNat, dif_pos this]
    exact UInt32.toNat_ofNatLT
  simp [latin1Byte?, hv, hb]

theorem latin1Bytes?_latin1 (bs : Bytes) : latin1Bytes? (latin1 bs) = some bs := by
  simp only [latin1Bytes?, latin1, String.toList_ofList]
  induction bs with
  | nil => rfl
  | cons b bs ih => simp [latin1Byte?_latin1Char, ih]

theorem utf8?_utf8Bytes (s : String) : utf8? (utf8Bytes s) = some s := by
  have hb : (utf8Bytes s).toByteArray = s.toUTF8 := by
    apply ByteArray.ext
    simp [utf8Bytes]
  rw [utf8?, hb, String.fromUTF8?, String.toUTF8_eq_toByteArray, dif_pos s.isValidUTF8]
  rfl

/-- How many bytes a well-formed UTF-8 sequence with this lead byte has, and the
range of its second byte; the others lie in `80..bf`. -/
def utf8Lead? (b : UInt8) : Option (Nat × UInt8 × UInt8) :=
  if b < 0x80 then some (1, 0, 0)
  else if b < 0xc2 then none
  else if b < 0xe0 then some (2, 0x80, 0xbf)
  else if b = 0xe0 then some (3, 0xa0, 0xbf)
  else if b = 0xed then some (3, 0x80, 0x9f)
  else if b < 0xf0 then some (3, 0x80, 0xbf)
  else if b = 0xf0 then some (4, 0x90, 0xbf)
  else if b < 0xf4 then some (4, 0x80, 0xbf)
  else if b = 0xf4 then some (4, 0x80, 0x8f)
  else none

def utf8Tail : Nat → UInt8 → UInt8 → Bytes → Nat
  | n + 1, low, high, b :: bs => if low ≤ b ∧ b ≤ high then utf8Tail n 0x80 0xbf bs + 1 else 0
  | _, _, _, _ => 0

def utf8Char (lead : UInt8) (tail : Bytes) : Char :=
  let mask := match tail.length with | 0 => 0x80 | 1 => 0x20 | 2 => 0x10 | _ => 0x08
  Char.ofNat (tail.foldl (fun n b => 64 * n + b.toNat % 64) (lead.toNat % mask))

/-- The text of a byte run in which each longest start of a sequence that
nothing can complete becomes one replacement character. -/
def utf8Lossy (bs : Bytes) : String :=
  go bs.length bs ""
where
  go : Nat → Bytes → String → String
    | fuel + 1, b :: bs, out =>
      match utf8Lead? b with
      | none => go fuel bs (out.push '\ufffd')
      | some (size, low, high) =>
        let found := utf8Tail (size - 1) low high bs
        let c := if found = size - 1 then utf8Char b (bs.take found) else '\ufffd'
        go fuel (bs.drop found) (out.push c)
    | _, _, out => out

end PickledModel.Text
