import PickledModel.Stream.Step

/-!
# Loading

Instructions are carried out until `STOP`, whose result is the only value on the
stack. Each takes at least its opcode from the stream, so a stream holds no more
instructions than bytes.
-/

set_option autoImplicit false

namespace PickledModel.Machine

def finish : Process Machine Value := do
  let m ← get
  if !m.suspended.isEmpty then fail .stop .unclosedMark
  set { m with stack := [] }
  match m.stack with
  | [s] => Held.value <$> resolve .stop s
  | slots => throw (.malformed (.leftover slots.length))

def next (r : Registry) : Process Machine (Option Value) := do
  let offset := (← get).cursor.position
  let code ← onCursor (Process.read Cursor.u8)
  match Opcode.ofByte? code with
  | none =>
    throw (.malformed (.unknown code offset ((← get).cursor.rest.take 8)))
  | some op =>
    match ← onCursor (Fetch.instruction offset op) with
    | .stop => some <$> finish
    | i => do
      step r op i
      return none

/-- Carries out at most `bytes` instructions, the number of bytes left; after
them the stream has ended without a result. -/
def run (r : Registry) : Nat → Machine → Except LoadError Value × Machine
  | 0, m => (.error (.shortage ⟨m.cursor.position, 1, 0⟩), m)
  | bytes + 1, m =>
    match (next r).start m with
    | (.ok none, m) => run r bytes m
    | (.ok (some v), m) => (.ok v, m)
    | (.error e, m) => (.error e, m)

/-- Loads the next value of the stream. The reports of the machine are those of
this load; its position, memo and allowance go on from the last one. -/
def load (r : Registry) (m : Machine) : Except LoadError Value × Machine :=
  run r m.cursor.size { m with reports := [] }

def diagnostics (m : Machine) : List LoadError := m.reports.map .unresolved

def loads (data : Bytes) (r : Registry) : Except LoadError Value := ((ofBytes data).load r).1

end PickledModel.Machine
