import PickledModel.Stream.Instruction

/-! Operands by the reads that they are made of. All that a stream gives is taken
in runs of a known length and in lines. What holds of these two reads and goes on
from reads to what follows them holds of every word and every run behind its
length; with a clause for the refusals, it holds of the operands of every opcode. -/

set_option autoImplicit false

namespace PickledModel

structure Read.Closed (R : ∀ {α : Type}, Read α → Prop) : Prop where
  pure : ∀ {α : Type} (a : α), R (Pure.pure a : Read α)
  bind : ∀ {α β : Type} {r : Read α} {f : α → Read β}, R r → (∀ a, R (f a)) → R (r >>= f)
  take : ∀ n, R (Cursor.take n)
  line : R Cursor.line

namespace Read.Closed

variable {R : ∀ {α : Type}, Read α → Prop} (hr : Read.Closed R)
include hr

theorem map {α β : Type} (f : α → β) {r : Read α} (h : R r) : R (f <$> r) := by
  rw [← bind_pure_comp]
  exact hr.bind h fun a => hr.pure (f a)

theorem word (width : Nat) : R (Cursor.word width) := hr.map _ (hr.take width)

theorem integer (width : Nat) : R (Cursor.integer width) := hr.map _ (hr.take width)

theorem run (width : Nat) : R (Cursor.run width) := hr.bind (hr.word width) hr.take

theorem skip (n : Nat) : R (Cursor.skip n) := hr.bind (hr.take n) fun _ => hr.pure ()

end Read.Closed

namespace Fetch

inductive Refusal : Cause → Prop
  | operand : Refusal .operand
  | index : Refusal .index
  | tooWide : Refusal .tooWide
  | invalidUtf8 : Refusal .invalidUtf8
  | negativeLength (length : Int) : Refusal (.negativeLength length)

structure Composed (R : ∀ {α : Type}, Read α → Prop)
    (P : ∀ {α : Type}, Process Cursor α → Prop) : Prop where
  reads : Read.Closed R
  pure : ∀ {α : Type} (a : α), P (Pure.pure a : Process Cursor α)
  bind : ∀ {α β : Type} {p : Process Cursor α} {f : α → Process Cursor β},
    P p → (∀ a, P (f a)) → P (p >>= f)
  read : ∀ {α : Type} {r : Read α}, R r → P (Process.read r)
  fail : ∀ {α : Type} (op : Opcode) {c : Cause}, Refusal c → P (fail op c : Process Cursor α)
  protocol : ∀ {α : Type} (version : UInt8),
    P (throw (.malformed (.protocol version)) : Process Cursor α)
  unsupported : ∀ {α : Type} (op : Opcode) (offset : Nat),
    P (throw (.malformed (.unsupported op offset)) : Process Cursor α)

namespace Composed

variable {R : ∀ {α : Type}, Read α → Prop} {P : ∀ {α : Type}, Process Cursor α → Prop}
  {α β : Type} (hp : Composed R P)
include hp

theorem map (f : α → β) {p : Process Cursor α} (h : P p) : P (f <$> p) := by
  rw [← bind_pure_comp]
  exact hp.bind h fun a => hp.pure (f a)

theorem number {width : Nat} (f : Nat → α) : P (Process.read (f <$> Cursor.word width)) :=
  hp.read (hp.reads.map f (hp.reads.word width))

theorem signed {width : Nat} (f : Int → α) : P (Process.read (f <$> Cursor.integer width)) :=
  hp.read (hp.reads.map f (hp.reads.integer width))

theorem line : P (Process.read Cursor.line) := hp.read hp.reads.line

theorem run (width : Nat) : P (Process.read (Cursor.run width)) := hp.read (hp.reads.run width)

theorem expect (op : Opcode) {c : Cause} (h : Refusal c) (a : Option α) :
    P (Fetch.expect op c a) := by
  cases a with
  | some a => exact hp.pure a
  | none => exact hp.fail op h

theorem signedRun (op : Opcode) : P (Fetch.signedRun op) := by
  apply hp.bind (hp.signed Int32.ofInt)
  intro i
  dsimp only
  split
  · exact hp.fail op (.negativeLength _)
  · exact hp.read (hp.reads.take _)

theorem pushLine (op : Opcode) (parse : Bytes → Option Value) : P (Fetch.pushLine op parse) :=
  hp.bind hp.line fun _ => hp.map _ (hp.expect op .operand _)

theorem pushText (op : Opcode) (width : Nat) : P (Fetch.pushText op width) :=
  hp.bind (hp.run width) fun _ => hp.bind (hp.expect op .invalidUtf8 _) fun _ => hp.pure _

theorem pushBytes (width : Nat) : P (Fetch.pushBytes width) :=
  hp.bind (hp.run width) fun _ => hp.pure _

theorem lineIndex (op : Opcode) : P (Fetch.lineIndex op) :=
  hp.bind hp.line fun _ => hp.expect op .index _

theorem globalName : P Fetch.globalName :=
  hp.bind hp.line fun _ => hp.bind hp.line fun _ => hp.pure _

/-- What holds of the parts holds of the operands of every opcode. -/
theorem instruction (offset : Nat) (op : Opcode) : P (Fetch.instruction offset op) := by
  cases op with
  | proto =>
    apply hp.bind (hp.number UInt8.ofNat)
    intro version
    by_cases h : Opcode.highestProtocol < version
    · simp only [h, if_true]
      exact hp.bind (hp.protocol version) fun _ => hp.pure _
    · simp only [h, if_false]
      exact hp.pure _
  | int | long | float | string | unicode => exact hp.pushLine _ _
  | binInt => exact hp.bind (hp.signed Int32.ofInt) fun _ => hp.pure _
  | binInt1 | binGet | binPut => exact hp.bind (hp.number UInt8.ofNat) fun _ => hp.pure _
  | binInt2 => exact hp.bind (hp.number UInt16.ofNat) fun _ => hp.pure _
  | longBinGet | longBinPut => exact hp.bind (hp.number UInt32.ofNat) fun _ => hp.pure _
  | frame => exact hp.bind (hp.number UInt64.ofNat) fun _ => hp.pure _
  | long1 => exact hp.bind (hp.run 1) fun _ => hp.map _ (hp.expect _ .tooWide _)
  | long4 => exact hp.bind (hp.signedRun _) fun _ => hp.map _ (hp.expect _ .tooWide _)
  | binFloat => exact hp.bind (hp.read (hp.reads.map _ (hp.reads.take 8))) fun _ => hp.pure _
  | binString => exact hp.bind (hp.signedRun _) fun _ => hp.pure _
  | shortBinString => exact hp.bind (hp.run 1) fun _ => hp.pure _
  | binUnicode | shortBinUnicode | binUnicode8 => exact hp.pushText _ _
  | binBytes | shortBinBytes | binBytes8 | byteArray8 => exact hp.pushBytes _
  | get | put => exact hp.map _ (hp.lineIndex _)
  | global => exact hp.bind hp.globalName fun _ => hp.pure _
  | inst => exact hp.map _ hp.globalName
  | persId | binPersId | ext1 | ext2 | ext4 | nextBuffer => exact hp.unsupported _ offset
  | _ => exact hp.pure _

end Composed

end Fetch

end PickledModel
