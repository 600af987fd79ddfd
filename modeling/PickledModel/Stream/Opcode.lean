/-!
# Opcodes

The instructions of protocols 0 to 5: their codes and their mnemonics. The main
statement is that a byte names an opcode exactly if it is the opcode's code.
-/

set_option autoImplicit false

namespace PickledModel

inductive Opcode where
  | mark
  | emptyTuple
  | stop
  | pop
  | popMark
  | dup
  | binBytes
  | shortBinBytes
  | float
  | binFloat
  | int
  | binInt
  | binInt1
  | long
  | binInt2
  | pushNone
  | persId
  | binPersId
  | reduce
  | string
  | binString
  | shortBinString
  | unicode
  | binUnicode
  | emptyList
  | append
  | build
  | global
  | dict
  | appends
  | get
  | binGet
  | inst
  | longBinGet
  | list
  | obj
  | put
  | binPut
  | longBinPut
  | setItem
  | tuple
  | setItems
  | emptyDict
  | proto
  | newObj
  | ext1
  | ext2
  | ext4
  | tuple1
  | tuple2
  | tuple3
  | newTrue
  | newFalse
  | long1
  | long4
  | shortBinUnicode
  | binUnicode8
  | binBytes8
  | emptySet
  | addItems
  | frozenSet
  | newObjEx
  | stackGlobal
  | memoize
  | frame
  | byteArray8
  | nextBuffer
  | readonlyBuffer
  deriving DecidableEq, Repr

namespace Opcode

def highestProtocol : UInt8 := 5

def code : Opcode → UInt8
  | .mark => 0x28
  | .emptyTuple => 0x29
  | .stop => 0x2e
  | .pop => 0x30
  | .popMark => 0x31
  | .dup => 0x32
  | .binBytes => 0x42
  | .shortBinBytes => 0x43
  | .float => 0x46
  | .binFloat => 0x47
  | .int => 0x49
  | .binInt => 0x4a
  | .binInt1 => 0x4b
  | .long => 0x4c
  | .binInt2 => 0x4d
  | .pushNone => 0x4e
  | .persId => 0x50
  | .binPersId => 0x51
  | .reduce => 0x52
  | .string => 0x53
  | .binString => 0x54
  | .shortBinString => 0x55
  | .unicode => 0x56
  | .binUnicode => 0x58
  | .emptyList => 0x5d
  | .append => 0x61
  | .build => 0x62
  | .global => 0x63
  | .dict => 0x64
  | .appends => 0x65
  | .get => 0x67
  | .binGet => 0x68
  | .inst => 0x69
  | .longBinGet => 0x6a
  | .list => 0x6c
  | .obj => 0x6f
  | .put => 0x70
  | .binPut => 0x71
  | .longBinPut => 0x72
  | .setItem => 0x73
  | .tuple => 0x74
  | .setItems => 0x75
  | .emptyDict => 0x7d
  | .proto => 0x80
  | .newObj => 0x81
  | .ext1 => 0x82
  | .ext2 => 0x83
  | .ext4 => 0x84
  | .tuple1 => 0x85
  | .tuple2 => 0x86
  | .tuple3 => 0x87
  | .newTrue => 0x88
  | .newFalse => 0x89
  | .long1 => 0x8a
  | .long4 => 0x8b
  | .shortBinUnicode => 0x8c
  | .binUnicode8 => 0x8d
  | .binBytes8 => 0x8e
  | .emptySet => 0x8f
  | .addItems => 0x90
  | .frozenSet => 0x91
  | .newObjEx => 0x92
  | .stackGlobal => 0x93
  | .memoize => 0x94
  | .frame => 0x95
  | .byteArray8 => 0x96
  | .nextBuffer => 0x97
  | .readonlyBuffer => 0x98

def mnemonic : Opcode → String
  | .mark => "MARK"
  | .emptyTuple => "EMPTY_TUPLE"
  | .stop => "STOP"
  | .pop => "POP"
  | .popMark => "POP_MARK"
  | .dup => "DUP"
  | .binBytes => "BINBYTES"
  | .shortBinBytes => "SHORT_BINBYTES"
  | .float => "FLOAT"
  | .binFloat => "BINFLOAT"
  | .int => "INT"
  | .binInt => "BININT"
  | .binInt1 => "BININT1"
  | .long => "LONG"
  | .binInt2 => "BININT2"
  | .pushNone => "NONE"
  | .persId => "PERSID"
  | .binPersId => "BINPERSID"
  | .reduce => "REDUCE"
  | .string => "STRING"
  | .binString => "BINSTRING"
  | .shortBinString => "SHORT_BINSTRING"
  | .unicode => "UNICODE"
  | .binUnicode => "BINUNICODE"
  | .emptyList => "EMPTY_LIST"
  | .append => "APPEND"
  | .build => "BUILD"
  | .global => "GLOBAL"
  | .dict => "DICT"
  | .appends => "APPENDS"
  | .get => "GET"
  | .binGet => "BINGET"
  | .inst => "INST"
  | .longBinGet => "LONG_BINGET"
  | .list => "LIST"
  | .obj => "OBJ"
  | .put => "PUT"
  | .binPut => "BINPUT"
  | .longBinPut => "LONG_BINPUT"
  | .setItem => "SETITEM"
  | .tuple => "TUPLE"
  | .setItems => "SETITEMS"
  | .emptyDict => "EMPTY_DICT"
  | .proto => "PROTO"
  | .newObj => "NEWOBJ"
  | .ext1 => "EXT1"
  | .ext2 => "EXT2"
  | .ext4 => "EXT4"
  | .tuple1 => "TUPLE1"
  | .tuple2 => "TUPLE2"
  | .tuple3 => "TUPLE3"
  | .newTrue => "NEWTRUE"
  | .newFalse => "NEWFALSE"
  | .long1 => "LONG1"
  | .long4 => "LONG4"
  | .shortBinUnicode => "SHORT_BINUNICODE"
  | .binUnicode8 => "BINUNICODE8"
  | .binBytes8 => "BINBYTES8"
  | .emptySet => "EMPTY_SET"
  | .addItems => "ADDITEMS"
  | .frozenSet => "FROZENSET"
  | .newObjEx => "NEWOBJ_EX"
  | .stackGlobal => "STACK_GLOBAL"
  | .memoize => "MEMOIZE"
  | .frame => "FRAME"
  | .byteArray8 => "BYTEARRAY8"
  | .nextBuffer => "NEXT_BUFFER"
  | .readonlyBuffer => "READONLY_BUFFER"

def ofByte? (b : UInt8) : Option Opcode :=
  match b.toNat with
  | 0x28 => some .mark
  | 0x29 => some .emptyTuple
  | 0x2e => some .stop
  | 0x30 => some .pop
  | 0x31 => some .popMark
  | 0x32 => some .dup
  | 0x42 => some .binBytes
  | 0x43 => some .shortBinBytes
  | 0x46 => some .float
  | 0x47 => some .binFloat
  | 0x49 => some .int
  | 0x4a => some .binInt
  | 0x4b => some .binInt1
  | 0x4c => some .long
  | 0x4d => some .binInt2
  | 0x4e => some .pushNone
  | 0x50 => some .persId
  | 0x51 => some .binPersId
  | 0x52 => some .reduce
  | 0x53 => some .string
  | 0x54 => some .binString
  | 0x55 => some .shortBinString
  | 0x56 => some .unicode
  | 0x58 => some .binUnicode
  | 0x5d => some .emptyList
  | 0x61 => some .append
  | 0x62 => some .build
  | 0x63 => some .global
  | 0x64 => some .dict
  | 0x65 => some .appends
  | 0x67 => some .get
  | 0x68 => some .binGet
  | 0x69 => some .inst
  | 0x6a => some .longBinGet
  | 0x6c => some .list
  | 0x6f => some .obj
  | 0x70 => some .put
  | 0x71 => some .binPut
  | 0x72 => some .longBinPut
  | 0x73 => some .setItem
  | 0x74 => some .tuple
  | 0x75 => some .setItems
  | 0x7d => some .emptyDict
  | 0x80 => some .proto
  | 0x81 => some .newObj
  | 0x82 => some .ext1
  | 0x83 => some .ext2
  | 0x84 => some .ext4
  | 0x85 => some .tuple1
  | 0x86 => some .tuple2
  | 0x87 => some .tuple3
  | 0x88 => some .newTrue
  | 0x89 => some .newFalse
  | 0x8a => some .long1
  | 0x8b => some .long4
  | 0x8c => some .shortBinUnicode
  | 0x8d => some .binUnicode8
  | 0x8e => some .binBytes8
  | 0x8f => some .emptySet
  | 0x90 => some .addItems
  | 0x91 => some .frozenSet
  | 0x92 => some .newObjEx
  | 0x93 => some .stackGlobal
  | 0x94 => some .memoize
  | 0x95 => some .frame
  | 0x96 => some .byteArray8
  | 0x97 => some .nextBuffer
  | 0x98 => some .readonlyBuffer
  | _ => none

theorem ofByte?_code (op : Opcode) : ofByte? op.code = some op := by
  cases op <;> rfl

end Opcode

end PickledModel
