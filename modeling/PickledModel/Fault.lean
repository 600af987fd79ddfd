import PickledModel.Bytes.Cursor
import PickledModel.Bytes.Octets
import PickledModel.Stream.Opcode
import PickledModel.Value.Access

/-!
# Faults

Why a load fails: the stream breaks a rule of its instructions, it ends too
early, or an object is given arguments or a state that do not fit its type.
Causes are data; their wording is in one function for each.
-/

set_option autoImplicit false

namespace PickledModel

def maxDimensions : Nat := 64

def maxNesting : Nat := 256

inductive StateFault where
  | notDict (found : Kind)
  | notTuple (found : Kind)
  | itemCount (found : Nat)
  | noDescriptor
  | noShape
  | dimensions (found : Nat)
  | payloadOverflow
  | payloadKind (found : Kind)
  | attributeName (found : Kind)
  | scalarKind
  | scalarLength (expected found : Nat)
  | notLatin1
  | noString
  | noBytes
  | noEntries
  | noEntry
  | tooManyArguments
  | noSequence
  deriving DecidableEq, Repr

def StateFault.message : StateFault → String
  | .notDict found => s!"expected a dict, found {found.name}"
  | .notTuple found => s!"expected a tuple, found {found.name}"
  | .itemCount found => s!"expected 5 state items, found {found}"
  | .noDescriptor => "dtype is not a numpy.dtype"
  | .noShape => "shape is not a tuple of sizes"
  | .dimensions found => s!"{found} dimensions exceed the limit of {maxDimensions}"
  | .payloadOverflow => "payload size overflows"
  | .payloadKind found => s!"raw data is a {found.name}, not bytes"
  | .attributeName found => s!"attribute name is a {found.name}"
  | .scalarKind => "second argument is not a byte string"
  | .scalarLength expected found => s!"expected {expected} bytes, found {found}"
  | .notLatin1 => "text is not latin-1"
  | .noString => "expected a string argument"
  | .noBytes => "expected bytes"
  | .noEntries => "expected a sequence of pairs"
  | .noEntry => "expected a key/value pair"
  | .tooManyArguments => "too many arguments"
  | .noSequence => "expected a sequence"

inductive Cause where
  | operand
  | index
  | tooWide
  | invalidUtf8
  | negativeLength (length : Int)
  | underflow
  | noMark
  | unclosedMark
  | unbound (index : Nat)
  | memoFull
  | tooDeep
  | copyLimit (limit : Nat)
  | oddEntries
  | notAppendable (found : Kind)
  | notSettable (found : Kind)
  | wrongTarget (found : Kind)
  | notTwoStrings
  | noClass
  | argumentsKind (found : Kind)
  | notCallable (found : Kind)
  deriving DecidableEq, Repr

def Cause.message (op : Opcode) : Cause → String
  | .operand => s!"invalid {op.mnemonic}"
  | .index => s!"invalid {op.mnemonic} index"
  | .tooWide => s!"{op.mnemonic} wider than 128 bits"
  | .invalidUtf8 => "invalid UTF-8"
  | .negativeLength length => s!"negative length {length}"
  | .underflow => "stack underflow"
  | .noMark => "MARK not found"
  | .unclosedMark => "STOP inside an unclosed MARK"
  | .unbound i => s!"invalid memo reference {i}"
  | .memoFull => "memo table overflow"
  | .tooDeep => s!"nesting too deep (more than {maxNesting} levels)"
  | .copyLimit limit => s!"copies of memoized values exceed {limit} bytes"
  | .oddEntries => "odd number of items for a dict"
  | .notAppendable found => s!"cannot append to a {found.name}"
  | .notSettable found => s!"cannot set items on a {found.name}"
  | .wrongTarget found => s!"{op.mnemonic} target is a {found.name}"
  | .notTwoStrings => "STACK_GLOBAL requires two strings"
  | .noClass => "OBJ without a class"
  | .argumentsKind found => s!"call arguments are a {found.name}"
  | .notCallable found => s!"cannot call a {found.name}"

/-- How a stream breaks the rules of its instructions. A value to be changed
that is not there is reported without an offset, and for `BUILD` without the
opcode too. -/
inductive StreamFault where
  | cause (c : Cause) (op : Opcode) (offset : Nat)
  | target (c : Cause) (op : Opcode)
  | leftover (items : Nat)
  | protocol (version : UInt8)
  | unsupported (op : Opcode) (offset : Nat)
  | unknown (code : UInt8) (offset : Nat) (next : Bytes)
  deriving DecidableEq, Repr

def StreamFault.message : StreamFault → String
  | .cause c op offset => s!"{c.message op} ({op.mnemonic} before offset {offset})"
  | .target c .build => c.message .build
  | .target c op => s!"{c.message op} ({op.mnemonic})"
  | .leftover items => s!"STOP with {items} items on the stack, expected 1"
  | .protocol version => s!"unsupported pickle protocol {version.toNat}"
  | .unsupported op offset => s!"unsupported opcode {op.mnemonic} at offset {offset}"
  | .unknown code offset next =>
    s!"unknown opcode 0x{Octets.hex code} at offset {offset} (next bytes: {Octets.preview next 8})"

inductive LoadError where
  | malformed (fault : StreamFault)
  | shortage (s : Shortage)
  | unknownElementType (code : String)
  | descriptorState (items : Nat)
  | malformedState (typeName : String) (fault : StateFault)
  | unresolved (typeName : String)
  deriving DecidableEq, Repr

namespace LoadError

def message : LoadError → String
  | .malformed fault => s!"malformed stream: {fault.message}"
  | .shortage s => s!"malformed stream: {s.message}"
  | .unknownElementType code => s!"unknown dtype '{code}'"
  | .descriptorState items => s!"unknown numpy.dtype setstate length '{items}'"
  | .malformedState typeName fault => s!"malformed state for '{typeName}': {fault.message}"
  | .unresolved typeName => s!"unknown function '{typeName}'"

def isFatal : LoadError → Bool
  | .unresolved _ => false
  | _ => true

end LoadError

end PickledModel
