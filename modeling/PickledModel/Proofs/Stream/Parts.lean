import PickledModel.Proofs.Stream.Additions
import PickledModel.Proofs.Stream.Holdings

/-! Instructions by their parts. An instruction takes values out of slots, and then
pushes a value, changes the uppermost one or calls a global. A property of processes
that has a clause for each of these parts holds of the instructions that are put
together of them, so an instruction is taken apart here and not once for each property. -/

set_option autoImplicit false

namespace PickledModel

namespace Machine
open Process

variable {op : Opcode} {P : ∀ {α : Type}, Process Machine α → Prop}

structure Editing (op : Opcode) (P : ∀ {α : Type}, Process Machine α → Prop) : Prop where
  bind : ∀ {α β : Type} {p : Process Machine α} {f : α → Process Machine β},
    P p → (∀ a, P (f a)) → P (p >>= f)
  fail : ∀ {α : Type} {c : Cause}, (∀ k, c ≠ .unbound k) → P (fail op c : Process Machine α)
  target : ∀ n, P (target op n)
  setTarget : ∀ v, P (setTarget v)

namespace Editing

variable (hp : Editing op P)
include hp

theorem extend (n : Nat) (a : Addition Value) : P (Machine.extend op n a) := by
  apply hp.bind (hp.target n)
  intro v
  split
  · exact hp.setTarget _
  · exact hp.fail (by cases a <;> simp [Addition.refusal])

end Editing

structure Effective (op : Opcode) (P : ∀ {α : Type}, Process Machine α → Prop) : Prop
    extends Editing op P where
  pure : ∀ {α : Type} (a : α), P (Pure.pure a : Process Machine α)
  push : ∀ n v, P (push op n v)

namespace Effective

variable (hp : Effective op P)
include hp

theorem pairs (items : List Value) : P (Machine.pairs op items) := by
  unfold Machine.pairs
  split
  · exact hp.pure _
  · exact hp.fail (by simp)

theorem arguments (v : Value) : P (Machine.arguments op v) := by
  unfold Machine.arguments
  split
  · exact hp.pure _
  · exact hp.fail (by simp)

theorem call {r : Registry} (hrun : ∀ name args, P (Process.ofExcept (Call.run r name args)))
    (hreport : ∀ names : List String,
      P (modify fun m : Machine => { m with reports := m.reports ++ names }))
    (n : Nat) (callee : Value) (args : List Value) : P (Machine.call r op n callee args) := by
  unfold Machine.call
  split
  · apply hp.bind (hrun _ args)
    intro result
    exact hp.bind (hreport result.unresolved.toList) fun _ => hp.push n _
  · exact hp.fail (by simp)

end Effective

structure Stepwise (op : Opcode) (P : ∀ {α : Type}, Process Machine α → Prop) : Prop
    extends Effective op P where
  topSlot : P (topSlot op)
  popSlot : P (popSlot op)
  popMark : P (popMark op)
  popValue : P (popValue op)
  popMarked : P (popMarked op)
  popValues : ∀ n, P (popValues op n)
  mark : P (modify fun m : Machine => { m with stack := [], suspended := m.stack :: m.suspended })
  look : ∀ {α : Type} {p q : Process Machine α}, P p → P q →
    P (do
      let m ← get
      if m.stack.isEmpty && !m.suspended.isEmpty then p else q)
  dup : P (dup op)
  put : ∀ k, P (put op k)

/-- The number of memo entries may be looked at if every part of the state may be. -/
theorem Stepwise.memoize (hp : Stepwise op P) (r : Registry)
    (hlook : ∀ f : Machine → Process Machine Unit, (∀ m, P (f m)) → P (get >>= f)) :
    P (step r op .memoize) := by
  apply hlook
  intro m
  dsimp only
  split
  · exact hp.put _
  · exact hp.fail (by simp)

/-- A property of the parts of an instruction is one of the instruction. Whether it holds of
the instructions that look at the memo, read the stream or make a call is said apart. -/
theorem Stepwise.step (hp : Stepwise op P) (r : Registry) {i : Instruction}
    (hget : ∀ k, i = .get k → P (pushMemo op k))
    (hmemoize : i = .memoize → P (step r op .memoize))
    (hbuild : i = .build → ∀ state, P (buildTop op state))
    (hcall : i.calls = true → ∀ n callee args, P (call r op n callee args)) : P (step r op i) := by
  cases i with
  | nothing | stop => exact hp.pure ()
  | push v => exact hp.push 0 v
  | inspect => exact hp.bind hp.topSlot fun _ => hp.pure ()
  | mark => exact hp.mark
  | pop =>
    apply hp.look
    · exact hp.bind hp.popMark fun _ => hp.pure ()
    · exact hp.bind hp.popSlot fun _ => hp.pure ()
  | popMark => exact hp.bind hp.popMark fun _ => hp.pure ()
  | dup => exact hp.dup
  | get k => exact hget k rfl
  | put k => exact hp.put k
  | memoize => exact hmemoize rfl
  | tuple size => exact hp.bind (hp.popValues size) fun _ => hp.push _ _
  | gather kind => exact hp.bind hp.popMarked fun _ => hp.push _ _
  | gatherDict =>
    exact hp.bind hp.popMarked fun g => hp.bind (hp.pairs g.values) fun _ => hp.push _ _
  | append => exact hp.bind hp.popValue fun _ => hp.extend _ _
  | appends => exact hp.bind hp.popMarked fun _ => hp.extend _ _
  | setItem =>
    exact hp.bind hp.popValue fun _ => hp.bind hp.popValue fun _ => hp.extend _ _
  | setItems =>
    exact hp.bind hp.popMarked fun g => hp.bind (hp.pairs g.values) fun _ => hp.extend _ _
  | addItems => exact hp.bind hp.popMarked fun _ => hp.extend _ _
  | stackGlobal =>
    apply hp.bind hp.popValue
    intro name
    apply hp.bind hp.popValue
    intro module_
    split
    · exact hp.push _ _
    · exact hp.fail (by simp)
  | call =>
    exact hp.bind hp.popValue fun args => hp.bind hp.popValue fun _ =>
      hp.bind (hp.arguments args.value) fun _ => hcall rfl _ _ _
  | callWithKeywords =>
    exact hp.bind hp.popValue fun _ => hp.bind hp.popValue fun args => hp.bind hp.popValue fun _ =>
      hp.bind (hp.arguments args.value) fun _ => hcall rfl _ _ _
  | callMarked =>
    apply hp.bind hp.popMarked
    intro g
    split
    · exact hp.fail (by simp)
    · exact hcall rfl _ _ _
  | callNamed name => exact hp.bind hp.popMarked fun _ => hcall rfl _ _ _
  | build => exact hp.bind hp.popValue fun _ => hbuild rfl _

end Machine

end PickledModel
