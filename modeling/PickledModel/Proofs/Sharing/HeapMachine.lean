import Mathlib.Algebra.Ring.Int.Defs
import Mathlib.Algebra.Ring.Nat
import PickledModel.Proofs.Sharing.Object
import PickledModel.Proofs.Stream.Instruction

/-! The machine with shared references: its slots and its memo refer to cells of
a heap, an instruction that changes a container or an object writes its cell,
and nothing is copied. Cells a reference to which went into another value are
noted, since a write to one of them would show in that value too. -/

set_option autoImplicit false

namespace PickledModel

def Layer.extend? (n : Layer Ref) (a : Addition Ref) : Option (Layer Ref) :=
  match n, a with
  | .sequence .list present, .toList items => some (.sequence .list (present ++ items))
  | .sequence .set present, .toSet items => some (.sequence .set (present ++ items))
  | .dict present, .toDict entries => some (.dict (present ++ entries))
  | _, _ => none

def pairUp? : List Ref → Option (List (Ref × Ref))
  | [] => some []
  | key :: value :: items => (pairUp? items).map ((key, value) :: ·)
  | [_] => none

def Instruction.writes : Instruction → Bool
  | .append | .appends | .setItem | .setItems | .addItems | .build => true
  | _ => false

structure HeapMachine where
  cursor : Cursor
  heap : Heap
  stack : List Ref
  suspended : List (List Ref)
  memo : Std.TreeMap Nat Ref
  reports : List String
  popped : List Nat

namespace HeapMachine

def ofBytes (data : Bytes) : HeapMachine where
  cursor := .ofBytes data
  heap := []
  stack := []
  suspended := []
  memo := ∅
  reports := []
  popped := []

def push (n : Layer Ref) (s : HeapMachine) : HeapMachine :=
  match n with
  | .leaf l => { s with stack := .leaf l :: s.stack }
  | n => { s with heap := s.heap ++ [n], stack := .cell s.heap.length :: s.stack }

def note (rs : List Ref) (s : HeapMachine) : HeapMachine :=
  { s with popped := rs.filterMap Ref.address? ++ s.popped }

def pop? (s : HeapMachine) : Option (Ref × HeapMachine) :=
  match s.stack with
  | r :: stack => some (r, note [r] { s with stack })
  | [] => none

def popMany? (n : Nat) (s : HeapMachine) : Option (List Ref × HeapMachine) :=
  let rs := (s.stack.take n).reverse
  if rs.length < n then none else some (rs, note rs { s with stack := s.stack.drop n })

def endSegment? (s : HeapMachine) : Option (List Ref × HeapMachine) :=
  match s.suspended with
  | stack :: suspended => some (s.stack.reverse, { s with stack, suspended })
  | [] => none

def popMarked? (s : HeapMachine) : Option (List Ref × HeapMachine) := do
  let (rs, s) ← s.endSegment?
  return (rs, note rs s)

def write? (f : Layer Ref → Option (Layer Ref)) (s : HeapMachine) : Option HeapMachine := do
  let a ← s.stack.head?.bind Ref.address?
  let n ← f (← s.heap[a]?)
  return { s with heap := s.heap.set a n }

def build? (state : Ref) (s : HeapMachine) : Option HeapMachine := do
  let a ← s.stack.head?.bind Ref.address?
  match ← s.heap[a]? with
  | .object typeName body =>
    let (body, cursor) ← s.heap.restore state body s.cursor
    return { s with heap := s.heap.set a (.object typeName body), cursor }
  | _ => none

def call? (r : Registry) (callee : Ref) (args : List Ref) (s : HeapMachine) : Option HeapMachine :=
  match callee with
  | .leaf (.global name) => do
    let (n, unresolved) ← s.heap.call r name args
    return { s with reports := s.reports ++ unresolved.toList }.push n
  | _ => none

def bind? (k : Nat) (s : HeapMachine) : Option HeapMachine :=
  s.stack.head?.map fun r => { s with memo := s.memo.insert k r }

def step? (r : Registry) : Instruction → HeapMachine → Option HeapMachine
  | .nothing, s | .stop, s => some s
  | .push v, s => some (s.push ((Layer.ofValue v).map fun _ => .leaf .none))
  | .inspect, s => if s.stack.isEmpty then none else some s
  | .mark, s => some { s with stack := [], suspended := s.stack :: s.suspended }
  | .pop, s =>
    if s.stack.isEmpty && !s.suspended.isEmpty then s.endSegment?.map Prod.snd
    else if s.stack.isEmpty then none
    else some { s with stack := s.stack.tail }
  | .popMark, s => s.endSegment?.map Prod.snd
  | .dup, s => s.stack.head?.map fun r => { s with stack := r :: s.stack }
  | .get k, s => s.memo[k]?.map fun r => { s with stack := r :: s.stack }
  | .put k, s => s.bind? k
  | .memoize, s => if s.memo.size < 2 ^ 32 then s.bind? s.memo.size else none
  | .tuple size, s => do
    let (rs, s) ← s.popMany? size
    return s.push (.sequence .tuple rs)
  | .gather kind, s => do
    let (rs, s) ← s.popMarked?
    return s.push (.sequence kind rs)
  | .gatherDict, s => do
    let (rs, s) ← s.popMarked?
    return s.push (.dict (← pairUp? rs))
  | .append, s => do
    let (item, s) ← s.pop?
    s.write? (·.extend? (.toList [item]))
  | .appends, s => do
    let (rs, s) ← s.popMarked?
    s.write? (·.extend? (.toList rs))
  | .setItem, s => do
    let (value, s) ← s.pop?
    let (key, s) ← s.pop?
    s.write? (·.extend? (.toDict [(key, value)]))
  | .setItems, s => do
    let (rs, s) ← s.popMarked?
    let entries ← pairUp? rs
    s.write? (·.extend? (.toDict entries))
  | .addItems, s => do
    let (rs, s) ← s.popMarked?
    s.write? (·.extend? (.toSet rs))
  | .stackGlobal, s => do
    let (name, s) ← s.pop?
    let (module_, s) ← s.pop?
    match module_, name with
    | .leaf (.str m), .leaf (.str n) => return s.push (.leaf (.global (m ++ "." ++ n)))
    | _, _ => none
  | .call, s => do
    let (args, s) ← s.pop?
    let (callee, s) ← s.pop?
    s.call? r callee (← s.heap.items? args)
  | .callWithKeywords, s => do
    let (_, s) ← s.pop?
    let (args, s) ← s.pop?
    let (callee, s) ← s.pop?
    s.call? r callee (← s.heap.items? args)
  | .callMarked, s => do
    let (rs, s) ← s.popMarked?
    match rs with
    | [] => none
    | callee :: args => s.call? r callee args
  | .callNamed name, s => do
    let (rs, s) ← s.popMarked?
    s.call? r (.leaf (.global name)) rs
  | .build, s => do
    let (state, s) ← s.pop?
    s.build? state

def topApart (s : HeapMachine) : Bool :=
  match s.stack.head? with
  | some (.cell a) => !s.popped.contains a
  | _ => true

def finish? (s : HeapMachine) : Option (Ref × HeapMachine) :=
  match s.suspended, s.stack with
  | [], [r] => some (r, { s with stack := [] })
  | _, _ => none

def run? (r : Registry) : Nat → HeapMachine → Option (Ref × HeapMachine)
  | 0, _ => none
  | bytes + 1, s => do
    let (_, i, cursor) ← s.cursor.fetch?
    match i with
    | .stop => finish? { s with cursor }
    | i => run? r bytes (← step? r i { s with cursor })

/-- Whether no instruction of a run writes a cell that went into another value, be
it with that same instruction: a list appended to itself is written after it went
into a value. -/
def runWritesApart (r : Registry) : Nat → HeapMachine → Bool
  | 0, _ => true
  | bytes + 1, s =>
    match s.cursor.fetch? with
    | none | some (_, .stop, _) => true
    | some (_, i, cursor) =>
      match step? r i { s with cursor } with
      | none => true
      | some s => (!i.writes || s.topApart) && runWritesApart r bytes s

def load? (r : Registry) (s : HeapMachine) : Option (Ref × HeapMachine) :=
  run? r s.cursor.size { s with reports := [] }

def writesApart (r : Registry) (s : HeapMachine) : Bool :=
  runWritesApart r s.cursor.size { s with reports := [] }

def diagnostics (s : HeapMachine) : List LoadError := s.reports.map .unresolved

section Step

variable {r : Registry} {s s' : HeapMachine} {op : Opcode} {i : Instruction} {cursor : Cursor}
  (hfetch : s.cursor.fetch? = some (op, i, cursor)) (hstop : i ≠ .stop)
  (hstep : step? r i { s with cursor } = some s')
include hfetch hstop hstep

theorem run?_step (bytes : Nat) : run? r (bytes + 1) s = run? r bytes s' := by
  rw [run?]
  cases i with
  | stop => exact absurd rfl hstop
  | _ => simp only [hfetch, hstep, Option.bind_eq_bind, Option.bind_some]

theorem runWritesApart_step (bytes : Nat) :
    runWritesApart r (bytes + 1) s = ((!i.writes || s'.topApart) && runWritesApart r bytes s') := by
  rw [runWritesApart]
  cases i with
  | stop => exact absurd rfl hstop
  | _ => simp only [hfetch, hstep]

end Step

end HeapMachine

end PickledModel
