import PickledModel.Stream.Machine

/-!
# Carrying out instructions

The effect of each instruction on the machine.
-/

set_option autoImplicit false

namespace PickledModel
open scoped Natural

inductive Addition (α : Type) where
  | toList (items : List α)
  | toSet (items : List α)
  | toDict (entries : List (α × α))

def Addition.refusal {α : Type} : Addition α → Kind → Cause
  | .toList _ => .notAppendable
  | .toSet _ => .wrongTarget
  | .toDict _ => .notSettable

def Value.extend? (v : Value) (a : Addition Value) : Option Value :=
  match v, a with
  | .list present, .toList items => some (.list (present ++ items))
  | .set present, .toSet items => some (.set (present ++ items))
  | .dict present, .toDict entries => some (.dict (present ++ entries))
  | _, _ => .none

namespace Machine

/-- Items in pairs, as keys and values, after those of `done` in reverse. -/
def pairsOnto? (done : List (Value × Value)) : List Value → Option (List (Value × Value))
  | [] => some done.reverse
  | key :: value :: items => pairsOnto? ((key, value) :: done) items
  | [_] => none

def pairs (op : Opcode) (items : List Value) : Process Machine (List (Value × Value)) :=
  match pairsOnto? [] items with
  | some entries => pure entries
  | none => fail op .oddEntries

theorem pairsOnto?_flatMap (done entries : List (Value × Value)) :
    pairsOnto? done (entries.flatMap fun (k, v) => [k, v]) = some (done.reverse ++ entries) := by
  induction entries generalizing done with
  | nil => simp [pairsOnto?]
  | cons e entries ih =>
    obtain ⟨k, v⟩ := e
    simp [pairsOnto?, ih]

def extend (op : Opcode) (inner : Nat) (a : Addition Value) : Process Machine Unit := do
  let v ← target op inner
  match v.extend? a with
  | some v => setTarget v
  | none => fail op (a.refusal v.kind)

def arguments (op : Opcode) (v : Value) : Process Machine (List Value) :=
  match v.items? with
  | some items => pure items
  | none => fail op (.argumentsKind v.kind)

def call (r : Registry) (op : Opcode) (inner : Nat) (callee : Value) (args : List Value) :
    Process Machine Unit := do
  match callee with
  | .global name =>
    let result ← Process.ofExcept (Call.run r name args)
    modify fun m => { m with reports := m.reports ++ result.unresolved.toList }
    push op inner result.value
  | v => fail op (.notCallable v.kind)

def buildTop (op : Opcode) (state : Held) : Process Machine Unit := do
  match ← target op state.depth with
  | .object typeName body =>
    let m ← get
    let (r, body, cursor) := (Body.restore typeName state.value).start (body, m.cursor)
    set { m with cursor }
    setTarget (.object typeName body)
    Process.ofExcept r
  | v => fail op (.wrongTarget v.kind)

def step (r : Registry) (op : Opcode) : Instruction → Process Machine Unit
  | .nothing | .stop => pure ()
  | .push v => push op 0 v
  | .inspect => do let _ ← topSlot op
  | .mark => modify fun m => { m with stack := [], suspended := m.stack :: m.suspended }
  | .pop => do
    let m ← get
    if m.stack.isEmpty && !m.suspended.isEmpty then let _ ← popMark op
    else let _ ← popSlot op
  | .popMark => do let _ ← popMark op
  | .dup => dup op
  | .get index => pushMemo op index
  | .put index => put op index
  | .memoize => do
    let size := (← get).memo.size
    if size < 2 ^ (32 : Nat) then put op size else fail op .memoFull
  | .tuple size => do
    let g ← popValues op size
    push op g.depth (.tuple g.values)
  | .gather kind => do
    let g ← popMarked op
    let items := if kind = .frozenSet then Value.distinctItems g.values else g.values
    push op g.depth (.sequence kind items)
  | .gatherDict => do
    let g ← popMarked op
    push op g.depth (.dict (← pairs op g.values))
  | .append => do
    let h ← popValue op
    extend op h.depth (.toList [h.value])
  | .appends => do
    let g ← popMarked op
    extend op g.depth (.toList g.values)
  | .setItem => do
    let value ← popValue op
    let key ← popValue op
    extend op (max value.depth key.depth) (.toDict [(key.value, value.value)])
  | .setItems => do
    let g ← popMarked op
    extend op g.depth (.toDict (← pairs op g.values))
  | .addItems => do
    let g ← popMarked op
    extend op g.depth (.toSet g.values)
  | .stackGlobal => do
    let name ← popValue op
    let module_ ← popValue op
    match module_.value, name.value with
    | .str m, .str n => push op 0 (.global (m ++ "." ++ n))
    | _, _ => fail op .notTwoStrings
  | .call => do
    let args ← popValue op
    let callee ← popValue op
    call r op (max args.depth callee.depth) callee.value (← arguments op args.value)
  | .callWithKeywords => do
    let keywords ← popValue op
    let args ← popValue op
    let callee ← popValue op
    call r op (max keywords.depth (max args.depth callee.depth)) callee.value
      (← arguments op args.value)
  | .callMarked => do
    let g ← popMarked op
    match g.values with
    | [] => fail op .noClass
    | callee :: args => call r op g.depth callee args
  | .callNamed name => do
    let g ← popMarked op
    call r op g.depth (.global name) g.values
  | .build => do
    let state ← popValue op
    buildTop op state

end Machine

end PickledModel
