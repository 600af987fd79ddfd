import Std.Data.TreeMap
import PickledModel.Object.Call
import PickledModel.Stream.Instruction
import PickledModel.Value.Size

/-!
# The stack machine

A stack with a segment for each open mark, a memo, and an allowance for copies.
A slot owns a value or refers to the memo; a memoized value is kept in the memo
alone, so a change through one reference shows through all. Taking a value out
of a slot copies it if it is memoized, charges the copy, and makes its keys
distinct.
-/

set_option autoImplicit false

namespace PickledModel
open scoped Natural

/-- A value and the levels that it nests at most. -/
structure Held where
  value : Value
  depth : Nat

inductive Slot where
  | owned (h : Held)
  | memo (index : Nat)

abbrev Memo := Std.TreeMap Nat Held

structure Machine where
  cursor : Cursor
  stack : List Slot
  suspended : List (List Slot)
  memo : Memo
  copyLimit : Nat
  allowance : Nat
  reports : List String

namespace Machine

def copyLimitFor (length : Nat) : Nat := max (min (128 * length) Value.largestSize) (64 * 2 ^ (20 : Nat))

def ofBytes (data : Bytes) : Machine where
  cursor := .ofBytes data
  stack := []
  suspended := []
  memo := ∅
  copyLimit := copyLimitFor data.length
  allowance := copyLimitFor data.length
  reports := []

def onCursor {α : Type} (p : Process Cursor α) : Process Machine α :=
  Process.on Machine.cursor (fun c m => { m with cursor := c }) p

def fail {α : Type} (op : Opcode) (c : Cause) : Process Machine α := do
  throw (.malformed (.cause c op (← get).cursor.position))

def chargeCopy (op : Opcode) (v : Value) : Process Machine Unit := do
  let m ← get
  match v.footprint? m.allowance with
  | some cost => set { m with allowance := m.allowance - cost }
  | none => fail op (.copyLimit m.copyLimit)

def copyMemo (op : Opcode) (index : Nat) : Process Machine Held := do
  match (← get).memo[index]? with
  | some h =>
    chargeCopy op h.value
    return h
  | none => fail op (.unbound index)

def resolve (op : Opcode) (s : Slot) : Process Machine Held := do
  let h ← match s with
    | .owned h => pure h
    | .memo index => copyMemo op index
  return { h with value := h.value.normalize }

structure Gathered where
  values : List Value
  depth : Nat

def Gathered.ofHeld (hs : List Held) : Gathered :=
  ⟨hs.map Held.value, (hs.map Held.depth).foldl max 0⟩

def resolveAll (op : Opcode) (slots : List Slot) : Process Machine Gathered := do
  return .ofHeld (← slots.mapM (resolve op))

def pushSlot (s : Slot) : Process Machine Unit :=
  modify fun m => { m with stack := s :: m.stack }

def checkDepth (op : Opcode) (depth : Nat) : Process Machine Unit := do
  if maxNesting < depth then fail op .tooDeep

def levelsOver (inner : Nat) (v : Value) : Nat := if v.nests then inner + 1 else 0

def push (op : Opcode) (inner : Nat) (v : Value) : Process Machine Unit := do
  checkDepth op (levelsOver inner v)
  pushSlot (.owned ⟨v, levelsOver inner v⟩)

def popSlot (op : Opcode) : Process Machine Slot := do
  let m ← get
  match m.stack with
  | s :: stack =>
    set { m with stack }
    return s
  | [] => fail op .underflow

def topSlot (op : Opcode) : Process Machine Slot := do
  match (← get).stack with
  | s :: _ => return s
  | [] => fail op .underflow

def popMark (op : Opcode) : Process Machine (List Slot) := do
  let m ← get
  match m.suspended with
  | stack :: suspended =>
    set { m with stack, suspended }
    return m.stack.reverse
  | [] => fail op .noMark

def popValue (op : Opcode) : Process Machine Held := do
  resolve op (← popSlot op)

def popMarked (op : Opcode) : Process Machine Gathered := do
  resolveAll op (← popMark op)

/-- The `n` uppermost values, the lowest first; all of them or none leave the stack. -/
def popValues (op : Opcode) (n : Nat) : Process Machine Gathered := do
  let m ← get
  let slots := m.stack.take n
  if slots.length < n then fail op .underflow
  else
    set { m with stack := m.stack.drop n }
    resolveAll op slots.reverse

/-- Changes what the uppermost slot holds, in the memo if that is where it is. -/
def modifyTop (f : Held → Held) : Process Machine Unit :=
  modify fun m =>
    match m.stack with
    | .owned h :: stack => { m with stack := .owned (f h) :: stack }
    | .memo index :: _ =>
      match m.memo[index]? with
      | some h => { m with memo := m.memo.insert index (f h) }
      | none => m
    | [] => m

def deepenTop (op : Opcode) (inner : Nat) : Process Machine Unit := do
  checkDepth op (inner + 1)
  modifyTop fun h => { h with depth := max h.depth (inner + 1) }

def target (op : Opcode) (inner : Nat) : Process Machine Value := do
  deepenTop op inner
  let m ← get
  match m.stack with
  | .owned h :: _ => return h.value
  | .memo index :: _ =>
    match m.memo[index]? with
    | some h => return h.value
    | none => throw (.malformed (.target (.unbound index) op))
  | [] => throw (.malformed (.target .underflow op))

def setTarget (v : Value) : Process Machine Unit := modifyTop fun h => { h with value := v }

def put (op : Opcode) (index : Nat) : Process Machine Unit := do
  let bind (h : Held) : Process Machine Unit := do
    modify fun m => { m with memo := m.memo.insert index h }
    pushSlot (.memo index)
  match ← popSlot op with
  | .owned h => bind h
  | .memo source =>
    if source = index then pushSlot (.memo index)
    else bind (← copyMemo op source)

def pushMemo (op : Opcode) (index : Nat) : Process Machine Unit := do
  if (← get).memo.contains index then pushSlot (.memo index)
  else fail op (.unbound index)

def dup (op : Opcode) : Process Machine Unit := do
  let s ← topSlot op
  match s with
  | .owned h => chargeCopy op h.value
  | .memo _ => pure ()
  pushSlot s

@[simp] theorem start_fail {α : Type} (op : Opcode) (c : Cause) (m : Machine) :
    (fail op c : Process Machine α).start m =
      (.error (.malformed (.cause c op m.cursor.position)), m) := rfl

theorem start_checkDepth (op : Opcode) (depth : Nat) (m : Machine) :
    (checkDepth op depth).start m =
      (if maxNesting < depth then .error (.malformed (.cause .tooDeep op m.cursor.position))
        else .ok (), m) := by
  unfold checkDepth
  split <;> rfl

theorem start_push {op : Opcode} {inner : Nat} {v : Value} (m : Machine)
    (h : levelsOver inner v ≤ maxNesting) :
    (push op inner v).start m =
      (.ok (), { m with stack := .owned ⟨v, levelsOver inner v⟩ :: m.stack }) := by
  rw [push, Process.start_bind, start_checkDepth, if_neg (Nat.not_lt.mpr h)]
  rfl

theorem start_popSlot (op : Opcode) (s : Slot) (stack : List Slot) (m : Machine)
    (h : m.stack = s :: stack) : (popSlot op).start m = (.ok s, { m with stack }) := by
  rw [popSlot, Process.start_bind]
  simp [h, Except.map]

theorem start_popMark (op : Opcode) (stack : List Slot) (suspended : List (List Slot)) (m : Machine)
    (h : m.suspended = stack :: suspended) :
    (popMark op).start m = (.ok m.stack.reverse, { m with stack, suspended }) := by
  rw [popMark, Process.start_bind]
  simp [h, Except.map]

/-- Taking a value out of a slot of its own costs nothing. -/
theorem start_resolve_owned (op : Opcode) (h : Held) (m : Machine) :
    (resolve op (.owned h)).start m = (.ok { h with value := h.value.normalize }, m) := rfl

end Machine

end PickledModel
