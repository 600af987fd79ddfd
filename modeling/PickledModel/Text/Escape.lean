import PickledModel.Text.Encoding
import PickledModel.Text.Numeral

/-!
# Escaped text

The two textual forms of strings in a stream: a quoted byte string with
backslash escapes, and Latin-1 text in which `\u` and `\U` name code points.
-/

set_option autoImplicit false

namespace PickledModel.Text

def isOctal (b : UInt8) : Bool := 0x30 ≤ b && b ≤ 0x37

/-- The byte that one to three octal digits write, modulo 256. -/
def octalByte (ds : Bytes) : UInt8 :=
  UInt8.ofNat (ds.foldl (fun n d => 8 * n + (d.toNat - 0x30)) 0)

def letterEscape? (b : UInt8) : Option UInt8 :=
  if b = 0x5c ∨ b = 0x27 ∨ b = 0x22 then some b
  else if b = 0x61 then some 0x07
  else if b = 0x62 then some 0x08
  else if b = 0x66 then some 0x0c
  else if b = 0x6e then some 0x0a
  else if b = 0x72 then some 0x0d
  else if b = 0x74 then some 0x09
  else if b = 0x76 then some 0x0b
  else none

/-- What the bytes after a backslash stand for, and how many of them do. A
newline stands for nothing, and an unknown escape for itself. -/
def escape? : Bytes → Option (Bytes × Nat)
  | [] => none
  | b :: bs =>
    if b = 0x0a then some ([], 1)
    else match letterEscape? b with
      | some c => some ([c], 1)
      | none =>
        if b = 0x78 then
          if (bs.take 2).length = 2 then
            (hexadecimal? (bs.take 2)).map fun n => ([UInt8.ofNat n], 3)
          else none
        else if isOctal b then
          let ds := ((b :: bs).take 3).takeWhile isOctal
          some ([octalByte ds], ds.length)
        else some ([0x5c, b], 1)

/-- The bytes that the inside of a quoted string stands for. Each step reads at
least one byte, so as many steps as bytes are enough. -/
def unescape? (bs : Bytes) : Option Bytes :=
  go bs.length bs []
where
  go : Nat → Bytes → Bytes → Option Bytes
    | fuel + 1, b :: bs, out =>
      if b = 0x5c then
        match escape? bs with
        | none => none
        | some (found, used) => go fuel (bs.drop used) (found.reverse ++ out)
      else go fuel bs (b :: out)
    | _, _, out => some out.reverse

def quoted? (bs : Bytes) : Option Bytes :=
  match bs with
  | [] => none
  | q :: body =>
    if (q = 0x27 ∨ q = 0x22) ∧ body.getLast? = some q then some body.dropLast else none

def unquote? (bs : Bytes) : Option Bytes := (quoted? bs).bind unescape?

def scalar? (n : Nat) : Option Char :=
  if h : n.isValidChar then some (Char.ofNatAux n h) else none

/-- How many digits the escape that a text starts with has; none is 0. -/
def unicodeEscapeWidth : Bytes → Nat
  | 0x5c :: 0x75 :: _ => 4
  | 0x5c :: 0x55 :: _ => 8
  | _ => 0

/-- Latin-1 text in which only the `\u` and `\U` escapes stand for something else. -/
def rawUnicode? (bs : Bytes) : Option String :=
  go bs.length bs []
where
  go : Nat → Bytes → List Char → Option String
    | fuel + 1, b :: bs, out =>
      match unicodeEscapeWidth (b :: bs) with
      | 0 => go fuel bs (latin1Char b :: out)
      | width =>
        let hex := (bs.drop 1).take width
        if hex.length = width then
          match (hexadecimal? hex).bind scalar? with
          | none => none
          | some c => go fuel (bs.drop (width + 1)) (c :: out)
        else none
    | _, _, out => some (String.ofList out.reverse)

end PickledModel.Text
