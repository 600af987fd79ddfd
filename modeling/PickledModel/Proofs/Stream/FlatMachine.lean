import Mathlib.Algebra.Ring.Int.Defs
import Mathlib.Algebra.Ring.Nat
import PickledModel.Stream.Load

/-! The machine with one flat stack, on which a mark is an entry like any other.
What it does beside the stack it does as the machine with segments does: it
reads the same instructions, keeps the same memo, and charges the same copies. -/

set_option autoImplicit false

namespace PickledModel

inductive Entry where
  | slot (s : Slot)
  | marker

namespace Entry

def isMarker : Entry → Bool
  | .marker => true
  | .slot _ => false

def splitMarker? : List Entry → Option (List Slot × List Entry)
  | .slot s :: entries => (splitMarker? entries).map fun (slots, below) => (s :: slots, below)
  | .marker :: below => some ([], below)
  | [] => none

def takeSlots? : Nat → List Entry → Option (List Slot × List Entry)
  | 0, below => some ([], below)
  | n + 1, .slot s :: entries => (takeSlots? n entries).map fun (slots, below) => (s :: slots, below)
  | _, _ => none

end Entry

structure FlatMachine where
  stack : List Entry
  cursor : Cursor
  memo : Memo
  copyLimit : Nat
  allowance : Nat
  reports : List String

namespace FlatMachine

def ofBytes (data : Bytes) : FlatMachine where
  stack := []
  cursor := .ofBytes data
  memo := ∅
  copyLimit := Machine.copyLimitFor data.length
  allowance := Machine.copyLimitFor data.length
  reports := []

def besides (m : FlatMachine) : Machine :=
  ⟨m.cursor, [], [], m.memo, m.copyLimit, m.allowance, m.reports⟩

def beside {α : Type} (p : Process Machine α) : Process FlatMachine α :=
  Process.on besides (fun t m => ⟨m.stack, t.cursor, t.memo, t.copyLimit, t.allowance, t.reports⟩) p

def fail {α : Type} (op : Opcode) (c : Cause) : Process FlatMachine α := beside (Machine.fail op c)

def pushEntry (e : Entry) : Process FlatMachine Unit :=
  modify fun m => { m with stack := e :: m.stack }

def push (op : Opcode) (inner : Nat) (v : Value) : Process FlatMachine Unit := do
  beside (Machine.checkDepth op (Machine.levelsOver inner v))
  pushEntry (.slot (.owned ⟨v, Machine.levelsOver inner v⟩))

def popEntry (op : Opcode) : Process FlatMachine Unit := do
  let m ← get
  match m.stack with
  | _ :: stack => set { m with stack }
  | [] => fail op .underflow

def popSlot (op : Opcode) : Process FlatMachine Slot := do
  let m ← get
  match m.stack with
  | .slot s :: stack =>
    set { m with stack }
    return s
  | _ => fail op .underflow

def topSlot (op : Opcode) : Process FlatMachine Slot := do
  match (← get).stack with
  | .slot s :: _ => return s
  | _ => fail op .underflow

def popMarker (op : Opcode) : Process FlatMachine (List Slot) := do
  let m ← get
  match Entry.splitMarker? m.stack with
  | some (slots, stack) =>
    set { m with stack }
    return slots.reverse
  | none => fail op .noMark

def popValue (op : Opcode) : Process FlatMachine Held := do
  let s ← popSlot op
  beside (Machine.resolve op s)

def popMarked (op : Opcode) : Process FlatMachine Machine.Gathered := do
  let slots ← popMarker op
  beside (Machine.resolveAll op slots)

def popValues (op : Opcode) (n : Nat) : Process FlatMachine Machine.Gathered := do
  let m ← get
  match Entry.takeSlots? n m.stack with
  | some (slots, stack) =>
    set { m with stack }
    beside (Machine.resolveAll op slots.reverse)
  | none => fail op .underflow

def modifyTop (f : Held → Held) : Process FlatMachine Unit :=
  modify fun m =>
    match m.stack with
    | .slot (.owned h) :: stack => { m with stack := .slot (.owned (f h)) :: stack }
    | .slot (.memo index) :: _ =>
      match m.memo[index]? with
      | some h => { m with memo := m.memo.insert index (f h) }
      | none => m
    | _ => m

def target (op : Opcode) (inner : Nat) : Process FlatMachine Value := do
  beside (Machine.checkDepth op (inner + 1))
  modifyTop fun h => { h with depth := max h.depth (inner + 1) }
  let m ← get
  match m.stack with
  | .slot (.owned h) :: _ => return h.value
  | .slot (.memo index) :: _ =>
    match m.memo[index]? with
    | some h => return h.value
    | none => throw (.malformed (.target (.unbound index) op))
  | _ => throw (.malformed (.target .underflow op))

def setTarget (v : Value) : Process FlatMachine Unit := modifyTop fun h => { h with value := v }

def put (op : Opcode) (index : Nat) : Process FlatMachine Unit := do
  let bind (h : Held) : Process FlatMachine Unit := do
    modify fun m => { m with memo := m.memo.insert index h }
    pushEntry (.slot (.memo index))
  match ← popSlot op with
  | .owned h => bind h
  | .memo source =>
    if source = index then pushEntry (.slot (.memo index))
    else bind (← beside (Machine.copyMemo op source))

def pushMemo (op : Opcode) (index : Nat) : Process FlatMachine Unit := do
  if (← get).memo.contains index then pushEntry (.slot (.memo index))
  else fail op (.unbound index)

def dup (op : Opcode) : Process FlatMachine Unit := do
  let s ← topSlot op
  match s with
  | .owned h => beside (Machine.chargeCopy op h.value)
  | .memo _ => pure ()
  pushEntry (.slot s)

def extend (op : Opcode) (inner : Nat) (a : Addition Value) : Process FlatMachine Unit := do
  let v ← target op inner
  match v.extend? a with
  | some v => setTarget v
  | none => fail op (a.refusal v.kind)

def call (r : Registry) (op : Opcode) (inner : Nat) (callee : Value) (args : List Value) :
    Process FlatMachine Unit := do
  match callee with
  | .global name =>
    let result ← Process.ofExcept (Call.run r name args)
    modify fun m => { m with reports := m.reports ++ result.unresolved.toList }
    push op inner result.value
  | v => fail op (.notCallable v.kind)

def buildTop (op : Opcode) (state : Held) : Process FlatMachine Unit := do
  match ← target op state.depth with
  | .object typeName body =>
    let m ← get
    let (r, body, cursor) := (Body.restore typeName state.value).start (body, m.cursor)
    set { m with cursor }
    setTarget (.object typeName body)
    Process.ofExcept r
  | v => fail op (.wrongTarget v.kind)

def step (r : Registry) (op : Opcode) : Instruction → Process FlatMachine Unit
  | .nothing | .stop => pure ()
  | .push v => push op 0 v
  | .inspect => do let _ ← topSlot op
  | .mark => pushEntry .marker
  | .pop => popEntry op
  | .popMark => do let _ ← popMarker op
  | .dup => dup op
  | .get index => pushMemo op index
  | .put index => put op index
  | .memoize => do
    let size := (← get).memo.size
    if size < 2 ^ 32 then put op size else fail op .memoFull
  | .tuple size => do
    let g ← popValues op size
    push op g.depth (.tuple g.values)
  | .gather kind => do
    let g ← popMarked op
    let items := if kind = .frozenSet then Value.distinctItems g.values else g.values
    push op g.depth (.sequence kind items)
  | .gatherDict => do
    let g ← popMarked op
    push op g.depth (.dict (← beside (Machine.pairs op g.values)))
  | .append => do
    let h ← popValue op
    extend op h.depth (.toList [h.value])
  | .appends => do
    let g ← popMarked op
    extend op g.depth (.toList g.values)
  | .setItem => do
    let value ← popValue op
    let key ← popValue op
    extend op (max value.depth key.depth) (.toDict [(key.value, value.value)])
  | .setItems => do
    let g ← popMarked op
    extend op g.depth (.toDict (← beside (Machine.pairs op g.values)))
  | .addItems => do
    let g ← popMarked op
    extend op g.depth (.toSet g.values)
  | .stackGlobal => do
    let name ← popValue op
    let module_ ← popValue op
    match module_.value, name.value with
    | .str m, .str n => push op 0 (.global (m ++ "." ++ n))
    | _, _ => fail op .notTwoStrings
  | .call => do
    let args ← popValue op
    let callee ← popValue op
    call r op (max args.depth callee.depth) callee.value (← beside (Machine.arguments op args.value))
  | .callWithKeywords => do
    let keywords ← popValue op
    let args ← popValue op
    let callee ← popValue op
    call r op (max keywords.depth (max args.depth callee.depth)) callee.value
      (← beside (Machine.arguments op args.value))
  | .callMarked => do
    let g ← popMarked op
    match g.values with
    | [] => fail op .noClass
    | callee :: args => call r op g.depth callee args
  | .callNamed name => do
    let g ← popMarked op
    call r op g.depth (.global name) g.values
  | .build => do
    let state ← popValue op
    buildTop op state

def finish : Process FlatMachine Value := do
  let m ← get
  if m.stack.any Entry.isMarker then fail .stop .unclosedMark
  set { m with stack := [] }
  match m.stack with
  | [.slot s] => Held.value <$> beside (Machine.resolve .stop s)
  | entries => throw (.malformed (.leftover entries.length))

def next (r : Registry) : Process FlatMachine (Option Value) := do
  let offset := (← get).cursor.position
  let code ← beside (Machine.onCursor (Process.read Cursor.u8))
  match Opcode.ofByte? code with
  | none => throw (.malformed (.unknown code offset ((← get).cursor.rest.take 8)))
  | some op =>
    match ← beside (Machine.onCursor (Fetch.instruction offset op)) with
    | .stop => some <$> finish
    | i => do
      step r op i
      return none

def run (r : Registry) : Nat → FlatMachine → Except LoadError Value × FlatMachine
  | 0, m => (.error (.shortage ⟨m.cursor.position, 1, 0⟩), m)
  | bytes + 1, m =>
    match (next r).start m with
    | (.ok none, m) => run r bytes m
    | (.ok (some v), m) => (.ok v, m)
    | (.error e, m) => (.error e, m)

def load (r : Registry) (m : FlatMachine) : Except LoadError Value × FlatMachine :=
  run r m.cursor.size { m with reports := [] }

def diagnostics (m : FlatMachine) : List LoadError := m.reports.map .unresolved

def after? (r : Registry) : Nat → FlatMachine → Option FlatMachine
  | 0, m => some m
  | n + 1, m =>
    match (next r).start m with
    | (.ok none, m) => after? r n m
    | _ => none

end FlatMachine

end PickledModel
