import PickledModel.Proofs.Bytes.Consumption
import PickledModel.Stream.Instruction

/-! What the operands of an instruction pay for, in bytes that are read for them. A
name that an instruction carries takes at least its line ends, and everything else
that it carries is worth no more than the opcode. -/

set_option autoImplicit false

namespace PickledModel

def Instruction.reserve : Instruction → Nat
  | .callNamed _ => 4
  | _ => 0

namespace Fetch
open Process

variable {α : Type}

theorem fail_pays (op : Opcode) (c : Cause) : Pays (fail op c : Process Cursor α) fun _ => 0 :=
  Grows.get fun _ => Grows.throw _ _

theorem expect_pays (op : Opcode) (c : Cause) (a : Option α) : Pays (expect op c a) fun _ => 0 := by
  cases a with
  | some a => exact Grows.pure (Nat.le_refl 0)
  | none => exact fail_pays op c

theorem globalName_pays : Pays globalName fun _ => 4 := by
  apply (read_pays Cursor.line_takes).bind
  intro module_
  apply ((read_free Cursor.line_takes).spare 4).bind
  intro name
  exact Grows.pure (Nat.le_refl 4)

theorem pushLine_pays (op : Opcode) (parse : Bytes → Option Value) :
    Pays (pushLine op parse) Instruction.reserve :=
  (read_free Cursor.line_takes).bind fun _ => (expect_pays _ _ _).map fun _ => Nat.le_refl 0

theorem signedRun_pays (op : Opcode) : Pays (signedRun op) fun _ => 0 := by
  apply (read_free ((Cursor.integer_takes 4).map _)).bind
  intro length
  dsimp only
  split
  · exact fail_pays _ _
  · exact read_free (Cursor.take_takes _)

theorem pushText_pays (op : Opcode) (width : Nat) :
    Pays (pushText op width) Instruction.reserve :=
  (read_free (Cursor.run_takes width)).bind fun _ => (expect_pays _ _ _).bind fun _ =>
    Grows.pure (Nat.le_refl 0)

theorem pushBytes_pays (width : Nat) : Pays (pushBytes width) Instruction.reserve :=
  (read_free (Cursor.run_takes width)).bind fun _ => Grows.pure (Nat.le_refl 0)

theorem lineIndex_pays (op : Opcode) : Pays (lineIndex op) fun _ => 0 :=
  (read_free Cursor.line_takes).bind fun _ => expect_pays _ _ _

theorem instruction_pays (offset : Nat) (op : Opcode) :
    Pays (instruction offset op) Instruction.reserve := by
  have quiet : ∀ i : Instruction, i.reserve = 0 →
      Pays (pure i : Process Cursor Instruction) Instruction.reserve :=
    fun i hi => Grows.pure (Nat.le_of_eq hi)
  have word : ∀ {α : Type} (f : Nat → α) (width : Nat) (g : α → Instruction),
      (∀ a, (g a).reserve = 0) →
      Pays (Process.read (f <$> Cursor.word width) >>= fun a => pure (g a)) Instruction.reserve :=
    fun f width g hg => (read_free ((Cursor.word_takes width).map f)).bind fun a => quiet _ (hg a)
  cases op with
  | int | long | float | string | unicode => exact pushLine_pays _ _
  | long1 =>
    exact (read_free (Cursor.run_takes 1)).bind fun _ => (expect_pays _ _ _).map fun _ =>
      Nat.le_refl 0
  | long4 =>
    exact (signedRun_pays _).bind fun _ => (expect_pays _ _ _).map fun _ => Nat.le_refl 0
  | proto =>
    apply (read_free ((Cursor.word_takes 1).map _)).bind
    intro version
    by_cases h : Opcode.highestProtocol < version
    · simp only [h, if_true]
      exact Grows.throw_bind _ _ _ _
    · simp only [h, if_false]
      exact quiet _ rfl
  | get | put => exact (lineIndex_pays _).map fun _ => Nat.le_refl 0
  | inst => exact globalName_pays.map fun _ => Nat.le_refl 4
  | global => exact globalName_pays.bind fun _ => Grows.pure (Nat.zero_le _)
  | binUnicode | shortBinUnicode | binUnicode8 => exact pushText_pays _ _
  | binBytes | shortBinBytes | binBytes8 | byteArray8 => exact pushBytes_pays _
  | binString => exact (signedRun_pays _).bind fun _ => quiet _ rfl
  | shortBinString => exact (read_free (Cursor.run_takes 1)).bind fun _ => quiet _ rfl
  | binFloat => exact (read_free ((Cursor.take_takes 8).map _)).bind fun _ => quiet _ rfl
  | binInt => exact (read_free ((Cursor.integer_takes 4).map _)).bind fun _ => quiet _ rfl
  | frame | binGet | binPut | longBinGet | longBinPut | binInt1 | binInt2 =>
    exact word _ _ _ fun _ => rfl
  | persId | binPersId | ext1 | ext2 | ext4 | nextBuffer => exact Grows.throw _ _
  | _ => exact quiet _ rfl

end Fetch

end PickledModel
