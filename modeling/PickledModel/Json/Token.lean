import PickledModel.Text.Numeral

/-!
# JSON tokens

The words of a JSON text. A string token holds its characters with the short
escapes resolved and the `\u` escapes as code units; a number token holds its
digits.
-/

set_option autoImplicit false

namespace PickledModel.Json
open scoped Natural

inductive StringUnit where
  | char (c : Char)
  | code (n : Nat)
  deriving DecidableEq, Repr

/-- The parts of a number as written; an absent fraction has no digits. -/
structure Numeral where
  negative : Bool
  whole : List Char
  fraction : List Char
  exponent : Option Int
  deriving DecidableEq, Repr

inductive Token where
  | openArray
  | closeArray
  | openObject
  | closeObject
  | comma
  | colon
  | null
  | bool (b : Bool)
  | number (n : Numeral)
  | string (s : List StringUnit)
  deriving DecidableEq, Repr

def shortEscape? : Char → Option Char
  | '"' => some '"'
  | '\\' => some '\\'
  | '/' => some '/'
  | 'b' => some '\x08'
  | 'f' => some '\x0c'
  | 'n' => some '\n'
  | 'r' => some '\r'
  | 't' => some '\t'
  | _ => none

def hexChar? (c : Char) : Option Nat :=
  if c.toNat < 128 then Text.hexDigit? (UInt8.ofNat c.toNat) else none

def codeUnit? (a b c d : Char) : Option Nat := do
  return 4096 * (← hexChar? a) + 256 * (← hexChar? b) + 16 * (← hexChar? c) + (← hexChar? d)

def stringTail? (done : List StringUnit) : List Char → Option (List StringUnit × List Char)
  | [] => none
  | '"' :: cs => some (done.reverse, cs)
  | '\\' :: 'u' :: a :: b :: c :: d :: cs =>
    match codeUnit? a b c d with
    | some n => stringTail? (.code n :: done) cs
    | none => none
  | '\\' :: e :: cs =>
    match shortEscape? e with
    | some c => stringTail? (.char c :: done) cs
    | none => none
  | c :: cs => if c.toNat < 0x20 ∨ c = '\\' then none else stringTail? (.char c :: done) cs

def digitRun? (cs : List Char) : Option (List Char × List Char) :=
  let ds := cs.takeWhile Char.isDigit
  if ds.isEmpty then none else some (ds, cs.dropWhile Char.isDigit)

def wholePart? (cs : List Char) : Option (List Char × List Char) :=
  match digitRun? cs with
  | some ('0' :: _ :: _, _) => none
  | r => r

def fractionPart? : List Char → Option (List Char × List Char)
  | '.' :: cs => digitRun? cs
  | cs => some ([], cs)

/-- The digits of an exponent. A digit counts only while the number before it is below
`2 ^ 31`; an exponent that large leaves the range of floats, however it goes on. -/
def exponentDigits? (negative : Bool) (cs : List Char) : Option (Option Int × List Char) :=
  (digitRun? cs).map fun (ds, cs) =>
    let n : Int := Text.cappedValue (2 ^ (31 : Nat)) ds
    (some (if negative then -n else n), cs)

def exponentPart? : List Char → Option (Option Int × List Char)
  | c :: cs =>
    if c = 'e' ∨ c = 'E' then
      match cs with
      | '-' :: cs => exponentDigits? true cs
      | '+' :: cs => exponentDigits? false cs
      | cs => exponentDigits? false cs
    else some (none, c :: cs)
  | [] => some (none, [])

def numeral? (negative : Bool) (cs : List Char) : Option (Numeral × List Char) := do
  let (whole, cs) ← wholePart? cs
  let (fraction, cs) ← fractionPart? cs
  let (exponent, cs) ← exponentPart? cs
  return (⟨negative, whole, fraction, exponent⟩, cs)

def isBlank (c : Char) : Bool := c = ' ' || c = '\n' || c = '\t' || c = '\r'

def token? : List Char → Option (Token × List Char)
  | '[' :: cs => some (.openArray, cs)
  | ']' :: cs => some (.closeArray, cs)
  | '{' :: cs => some (.openObject, cs)
  | '}' :: cs => some (.closeObject, cs)
  | ',' :: cs => some (.comma, cs)
  | ':' :: cs => some (.colon, cs)
  | 'n' :: 'u' :: 'l' :: 'l' :: cs => some (.null, cs)
  | 't' :: 'r' :: 'u' :: 'e' :: cs => some (.bool true, cs)
  | 'f' :: 'a' :: 'l' :: 's' :: 'e' :: cs => some (.bool false, cs)
  | '"' :: cs => (stringTail? [] cs).map fun (s, cs) => (.string s, cs)
  | '-' :: cs => (numeral? true cs).map fun (n, cs) => (.number n, cs)
  | cs => (numeral? false cs).map fun (n, cs) => (.number n, cs)

/-- The tokens of a text. Each takes at least one character, so as many steps as
characters are enough. -/
def tokens? (cs : List Char) : Option (List Token) :=
  go cs.length cs []
where
  go (fuel : Nat) (cs : List Char) (done : List Token) : Option (List Token) :=
    match fuel, cs.dropWhile isBlank with
    | fuel + 1, c :: cs =>
      match token? (c :: cs) with
      | some (t, cs) => go fuel cs (t :: done)
      | none => none
    | _, [] => some done.reverse
    | 0, _ => none

end PickledModel.Json
