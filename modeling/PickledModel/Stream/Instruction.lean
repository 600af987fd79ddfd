import PickledModel.Number.Literal
import PickledModel.Process
import PickledModel.Text.Blank
import PickledModel.Text.Escape

/-!
# Instructions

An opcode with its operands read. Reading comes before any effect on the stack,
so an operand that is cut short or malformed stops the load with the stack as it
was; the cursor keeps what was read.
-/

set_option autoImplicit false

namespace PickledModel
open scoped Natural

inductive Instruction where
  | nothing
  | push (v : Value)
  | inspect
  | mark
  | pop
  | popMark
  | dup
  | get (index : Nat)
  | put (index : Nat)
  | memoize
  | tuple (size : Nat)
  | gather (kind : SequenceKind)
  | gatherDict
  | append
  | appends
  | setItem
  | setItems
  | addItems
  | stackGlobal
  | call
  | callWithKeywords
  | callMarked
  | callNamed (name : String)
  | build
  | stop

namespace Fetch

def lineText? (line : Bytes) : Option (List Char) :=
  (Text.utf8? line).map fun s => Text.trim s.toList

def isWide (i : Int) : Bool := -2 ^ (127 : Nat) ≤ i && i < 2 ^ (127 : Nat)

def lineInt? (line : Bytes) : Option Value :=
  (((lineText? line).bind (Text.integer? (2 ^ (127 : Nat) + 1))).filter isWide).map Value.ofInt

def lineIndex? (line : Bytes) : Option Nat :=
  (lineText? line).bind (Text.natural? (2 ^ (32 : Nat)))

def lineFloat? (line : Bytes) : Option Value :=
  ((lineText? line).bind Binary64.literal?).map Value.float

/-- An integer line in which `00` and `01` are the truth values. -/
def lineIntOrBool? (line : Bytes) : Option Value :=
  if line = [0x30, 0x30] then some (.bool false)
  else if line = [0x30, 0x31] then some (.bool true)
  else lineInt? line

def lineLong? (line : Bytes) : Option Value :=
  lineInt? (if line.getLast? = some 0x4c then line.dropLast else line)

def long? (bs : Bytes) : Option Value :=
  if bs.length ≤ 16 then some (.ofInt (Word.signed bs)) else none

def fail {α : Type} (op : Opcode) (c : Cause) : Process Cursor α := do
  throw (.malformed (.cause c op (← get).position))

def expect {α : Type} (op : Opcode) (c : Cause) : Option α → Process Cursor α
  | some a => pure a
  | none => fail op c

/-- A byte run after its length, a signed 32-bit integer that must not be negative. -/
def signedRun (op : Opcode) : Process Cursor Bytes := do
  let length := (← Process.read Cursor.i32).toInt
  if length < 0 then fail op (.negativeLength length)
  else Process.read (Cursor.take length.toNat)

def pushLine (op : Opcode) (parse : Bytes → Option Value) : Process Cursor Instruction := do
  Instruction.push <$> expect op .operand (parse (← Process.read Cursor.line))

def pushText (op : Opcode) (width : Nat) : Process Cursor Instruction := do
  let s ← expect op .invalidUtf8 (Text.utf8? (← Process.read (Cursor.run width)))
  return .push (.str s)

def pushBytes (width : Nat) : Process Cursor Instruction := do
  return .push (.bytes (← Process.read (Cursor.run width)))

def lineIndex (op : Opcode) : Process Cursor Nat := do
  expect op .index (lineIndex? (← Process.read Cursor.line))

def globalName : Process Cursor String := do
  let module_ ← Process.read Cursor.line
  let name ← Process.read Cursor.line
  return Text.latin1 module_ ++ "." ++ Text.latin1 name

def instruction (offset : Nat) (op : Opcode) : Process Cursor Instruction := do
  match op with
  | .proto =>
    let version ← Process.read Cursor.u8
    if Opcode.highestProtocol < version then throw (.malformed (.protocol version))
    return .nothing
  | .frame =>
    let _ ← Process.read Cursor.u64
    return .nothing
  | .stop => return .stop
  | .pushNone => return .push .none
  | .newTrue => return .push (.bool true)
  | .newFalse => return .push (.bool false)
  | .int => pushLine op lineIntOrBool?
  | .long => pushLine op lineLong?
  | .binInt => return .push (.int (← Process.read Cursor.i32).toInt64)
  | .binInt1 => return .push (.int (Int64.ofNat (← Process.read Cursor.u8).toNat))
  | .binInt2 => return .push (.int (Int64.ofNat (← Process.read Cursor.u16).toNat))
  | .long1 => Instruction.push <$> expect op .tooWide (long? (← Process.read (Cursor.run 1)))
  | .long4 => Instruction.push <$> expect op .tooWide (long? (← signedRun op))
  | .float => pushLine op lineFloat?
  | .binFloat => return .push (.float (← Process.read Cursor.f64BigEndian))
  | .string => pushLine op fun line => (Text.unquote? line).map fun bs => .str (Text.latin1 bs)
  | .binString => return .push (.str (Text.latin1 (← signedRun op)))
  | .shortBinString => return .push (.str (Text.latin1 (← Process.read (Cursor.run 1))))
  | .unicode => pushLine op fun line => (Text.rawUnicode? line).map Value.str
  | .binUnicode => pushText op 4
  | .shortBinUnicode => pushText op 1
  | .binUnicode8 => pushText op 8
  | .binBytes => pushBytes 4
  | .shortBinBytes => pushBytes 1
  | .binBytes8 | .byteArray8 => pushBytes 8
  | .readonlyBuffer => return .inspect
  | .mark => return .mark
  | .pop => return .pop
  | .popMark => return .popMark
  | .dup => return .dup
  | .get => Instruction.get <$> lineIndex op
  | .binGet => return .get (← Process.read Cursor.u8).toNat
  | .longBinGet => return .get (← Process.read Cursor.u32).toNat
  | .put => Instruction.put <$> lineIndex op
  | .binPut => return .put (← Process.read Cursor.u8).toNat
  | .longBinPut => return .put (← Process.read Cursor.u32).toNat
  | .memoize => return .memoize
  | .emptyTuple => return .push (.tuple [])
  | .tuple => return .gather .tuple
  | .tuple1 => return .tuple 1
  | .tuple2 => return .tuple 2
  | .tuple3 => return .tuple 3
  | .emptyList => return .push (.list [])
  | .list => return .gather .list
  | .append => return .append
  | .appends => return .appends
  | .emptyDict => return .push (.dict [])
  | .dict => return .gatherDict
  | .setItem => return .setItem
  | .setItems => return .setItems
  | .emptySet => return .push (.set [])
  | .addItems => return .addItems
  | .frozenSet => return .gather .frozenSet
  | .global => return .push (.global (← globalName))
  | .stackGlobal => return .stackGlobal
  | .reduce | .newObj => return .call
  | .newObjEx => return .callWithKeywords
  | .obj => return .callMarked
  | .inst => Instruction.callNamed <$> globalName
  | .build => return .build
  | .persId | .binPersId | .ext1 | .ext2 | .ext4 | .nextBuffer =>
    throw (.malformed (.unsupported op offset))

end Fetch

end PickledModel
