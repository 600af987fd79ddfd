import PickledModel.Proofs.Process.Invariant
import PickledModel.Proofs.Process.Outcome
import PickledModel.Proofs.Value.Throughout
import PickledModel.Stream.Load

/-! The instruction that a stream goes on with. What an instruction pushes by
itself has no values inside it: it is a leaf or an empty container. The names
it gives to globals are never empty. Most instructions move slots about, or they make
a value, fill the uppermost one or call a global with what they take. -/

set_option autoImplicit false

namespace PickledModel

def Instruction.Flat : Instruction → Prop
  | .push v => v.children = []
  | _ => True

def Instruction.Bare : Instruction → Prop
  | .push v => v.children = [] ∧ v.Ordinary
  | .callNamed name => name ≠ ""
  | _ => True

theorem Instruction.Bare.flat {i : Instruction} (h : i.Bare) : i.Flat := by
  cases i with
  | push v => exact h.1
  | _ => trivial

namespace Instruction

def moves : Instruction → Bool
  | .nothing | .stop | .inspect | .mark | .pop | .popMark | .dup | .get _ | .put _ | .memoize => true
  | _ => false

def makes : Instruction → Bool
  | .tuple _ | .gather _ | .gatherDict | .stackGlobal => true
  | _ => false

def fills : Instruction → Bool
  | .append | .appends | .setItem | .setItems | .addItems => true
  | _ => false

def calls : Instruction → Bool
  | .call | .callWithKeywords | .callMarked | .callNamed _ => true
  | _ => false

end Instruction

namespace Fetch
open Process

theorem fail_keeps {α : Type} {i : Cursor → Prop} {q : α → Prop} (op : Opcode) (c : Cause) :
    Keeps i (fail op c : Process Cursor α) q :=
  Keeps.get.bind fun _ _ => Keeps.throw _

theorem expect_keeps {α : Type} {i : Cursor → Prop} (op : Opcode) (c : Cause) (a : Option α) :
    Keeps i (expect op c a) fun b => a = some b := by
  cases a with
  | some a => exact Keeps.pure rfl
  | none => exact fail_keeps op c

theorem ofInt_bare (i : Int) : (Instruction.push (.ofInt i)).Bare := by
  unfold Value.ofInt
  split <;> exact ⟨rfl, trivial⟩

theorem lineInt?_bare {line : Bytes} {v : Value} (h : lineInt? line = some v) :
    (Instruction.push v).Bare := by
  obtain ⟨i, _, rfl⟩ := Option.map_eq_some_iff.mp h
  exact ofInt_bare i

theorem lineIntOrBool?_bare {line : Bytes} {v : Value} (h : lineIntOrBool? line = some v) :
    (Instruction.push v).Bare := by
  unfold lineIntOrBool? at h
  split at h
  · obtain rfl := Option.some.inj h
    exact ⟨rfl, trivial⟩
  split at h
  · obtain rfl := Option.some.inj h
    exact ⟨rfl, trivial⟩
  · exact lineInt?_bare h

theorem map_leaf_bare {α : Type} {a : Option α} {f : α → Leaf} {v : Value}
    (hf : ∀ x, (Value.leaf (f x)).Ordinary)
    (h : a.map (fun x => Value.leaf (f x)) = some v) : (Instruction.push v).Bare := by
  obtain ⟨x, _, rfl⟩ := Option.map_eq_some_iff.mp h
  exact ⟨rfl, hf x⟩

theorem long?_bare {bs : Bytes} {v : Value} (h : long? bs = some v) :
    (Instruction.push v).Bare := by
  unfold long? at h
  split at h
  · obtain rfl := Option.some.inj h
    exact ofInt_bare _
  · cases h

theorem pushLine_bare (op : Opcode) {parse : Bytes → Option Value}
    (h : ∀ line v, parse line = some v → (Instruction.push v).Bare) :
    Keeps (fun _ => True) (pushLine op parse) Instruction.Bare :=
  (Keeps.trivially _).bind fun line _ => Keeps.map ((expect_keeps op _ _).weaken fun v hv =>
    h line v hv)

theorem dotted_ne_empty (module_ name : String) : module_ ++ "." ++ name ≠ "" := by
  intro h
  have hlength := congrArg String.length h
  simp only [String.length_append] at hlength
  have hdot : ".".length = 1 := rfl
  have hempty : "".length = 0 := rfl
  omega

theorem globalName_keeps : Keeps (fun _ => True) globalName (· ≠ "") :=
  (Keeps.trivially _).bind fun _ _ => (Keeps.trivially _).bind fun _ _ =>
    Keeps.pure (dotted_ne_empty _ _)

theorem instruction_bare (offset : Nat) (op : Opcode) :
    Keeps (fun _ => True) (instruction offset op) Instruction.Bare := by
  have quiet : ∀ i : Instruction, i.Bare → Keeps (fun _ : Cursor => True) (pure i) Instruction.Bare :=
    fun i hi => Keeps.pure hi
  cases op with
  | int => exact pushLine_bare _ fun _ _ => lineIntOrBool?_bare
  | long => exact pushLine_bare _ fun _ _ => lineInt?_bare
  | float => exact pushLine_bare _ fun _ _ => map_leaf_bare fun _ => trivial
  | string => exact pushLine_bare _ fun _ _ => map_leaf_bare fun _ => trivial
  | unicode => exact pushLine_bare _ fun _ _ => map_leaf_bare fun _ => trivial
  | long1 | long4 =>
    exact (Keeps.trivially _).bind fun bs _ => Keeps.map ((expect_keeps _ _ _).weaken fun v hv =>
      long?_bare hv)
  | proto =>
    apply (Keeps.trivially _).bind
    intro version _
    by_cases h : Opcode.highestProtocol < version
    · simp only [h, if_true]
      exact (Keeps.throw (q := fun _ => False) _).bind fun _ h => h.elim
    · simp only [h, if_false]
      exact quiet _ trivial
  | get => exact Keeps.map ((Keeps.trivially _).weaken fun _ _ => trivial)
  | put => exact Keeps.map ((Keeps.trivially _).weaken fun _ _ => trivial)
  | inst => exact Keeps.map globalName_keeps
  | global => exact globalName_keeps.bind fun name h => quiet _ ⟨rfl, h⟩
  | binUnicode | shortBinUnicode | binUnicode8 =>
    exact (Keeps.trivially _).bind fun bs _ => (expect_keeps _ _ _).bind fun s _ =>
      quiet _ ⟨rfl, trivial⟩
  | persId | binPersId | ext1 | ext2 | ext4 | nextBuffer => exact Keeps.throw _
  | binInt | binInt1 | binInt2 | binFloat | binString | shortBinString | binBytes
  | shortBinBytes | binBytes8 | byteArray8 =>
    exact (Keeps.trivially _).bind fun _ _ => quiet _ ⟨rfl, trivial⟩
  | frame | binGet | longBinGet | binPut | longBinPut =>
    exact (Keeps.trivially _).bind fun _ _ => quiet _ trivial
  | pushNone | newTrue | newFalse | emptyTuple | emptyList | emptyDict | emptySet =>
    exact quiet _ ⟨rfl, trivial⟩
  | _ => exact quiet _ trivial

theorem instruction_flat (offset : Nat) (op : Opcode) :
    Keeps (fun _ => True) (instruction offset op) Instruction.Flat :=
  (instruction_bare offset op).weaken fun _ h => h.flat

end Fetch

def Cursor.fetch? (c : Cursor) : Option (Opcode × Instruction × Cursor) := do
  let (code, c') ← (Process.read Cursor.u8).result? c
  let op ← Opcode.ofByte? code
  let (i, c') ← (Fetch.instruction c.position op).result? c'
  return (op, i, c')

theorem Cursor.bare_of_fetch? {c c' : Cursor} {op : Opcode} {i : Instruction}
    (h : c.fetch? = some (op, i, c')) : i.Bare := by
  unfold Cursor.fetch? at h
  obtain ⟨⟨code, c₁⟩, hcode, h⟩ := Option.bind_eq_some_iff.mp h
  obtain ⟨op', hop, h⟩ := Option.bind_eq_some_iff.mp h
  obtain ⟨⟨i', c₂⟩, hi, h⟩ := Option.bind_eq_some_iff.mp h
  cases h
  have hstart := Process.result?_eq_some_iff.mp hi
  exact (Fetch.instruction_bare c.position op c₁ trivial).2 i (by rw [hstart])

theorem Cursor.flat_of_fetch? {c c' : Cursor} {op : Opcode} {i : Instruction}
    (h : c.fetch? = some (op, i, c')) : i.Flat :=
  (bare_of_fetch? h).flat

namespace Machine
open Process

/-- What the next instruction did if it succeeded. -/
theorem next_ok {r : Registry} {m m' : Machine} {o : Option Value}
    (h : (next r).start m = (.ok o, m')) :
    ∃ op i c, m.cursor.fetch? = some (op, i, c) ∧
      ((∃ v, i = .stop ∧ o = some v ∧ finish.start { m with cursor := c } = (.ok v, m')) ∨
        (i ≠ .stop ∧ o = none ∧ (step r op i).start { m with cursor := c } = (.ok (), m'))) := by
  rw [next, start_bind, start_get] at h
  obtain ⟨code, m₁, hcode, h⟩ := start_bind_ok h
  obtain ⟨c₁, hread, rfl⟩ := start_on_ok hcode
  cases hop : Opcode.ofByte? code with
  | none =>
    simp only [hop] at h
    cases h
  | some op =>
    simp only [hop] at h
    obtain ⟨i, m₂, hi, h⟩ := start_bind_ok h
    obtain ⟨c₂, hfetch, rfl⟩ := start_on_ok hi
    have hnext : m.cursor.fetch? = some (op, i, c₂) := by
      simp only [Cursor.fetch?, result?_eq_some_iff.mpr hread, hop,
        result?_eq_some_iff.mpr hfetch, Option.bind_eq_bind, Option.bind_some, Option.pure_def]
    refine ⟨op, i, c₂, hnext, ?_⟩
    cases i with
    | stop =>
      obtain ⟨v, hfinish, rfl⟩ := start_map_ok h
      exact .inl ⟨v, rfl, rfl, hfinish⟩
    | _ =>
      obtain ⟨u, m₃, hstep, hret⟩ := start_bind_ok h
      cases hret
      exact .inr ⟨by simp, rfl, hstep⟩

theorem start_onCursor {α : Type} (p : Process Cursor α) (m : Machine) :
    (onCursor p).start m = ((p.start m.cursor).1, { m with cursor := (p.start m.cursor).2 }) := rfl

def perform (r : Registry) (op : Opcode) : Instruction → Process Machine (Option Value)
  | .stop => some <$> finish
  | i => do
    step r op i
    return none

theorem start_perform_of_ne_stop (r : Registry) (op : Opcode) {i : Instruction} (h : i ≠ .stop)
    (m : Machine) :
    (perform r op i).start m =
      (((step r op i).start m).1.map fun _ => none, ((step r op i).start m).2) := by
  have hperform : perform r op i = step r op i >>= fun _ => pure none := by
    cases i with
    | stop => exact absurd rfl h
    | _ => rfl
  rw [hperform, bind_pure_comp, start_map]

/-- An instruction that can be read is carried out. -/
theorem start_next_of_fetch? {r : Registry} {m : Machine} {op : Opcode} {i : Instruction}
    {c : Cursor} (h : m.cursor.fetch? = some (op, i, c)) :
    (next r).start m = (perform r op i).start { m with cursor := c } := by
  unfold Cursor.fetch? at h
  obtain ⟨⟨code, c₁⟩, hcode, h⟩ := Option.bind_eq_some_iff.mp h
  obtain ⟨op', hop, h⟩ := Option.bind_eq_some_iff.mp h
  obtain ⟨⟨i', c₂⟩, hi, h⟩ := Option.bind_eq_some_iff.mp h
  cases h
  rw [result?_eq_some_iff] at hcode hi
  rw [next, start_bind, start_get]
  dsimp only
  rw [start_bind, start_onCursor, hcode]
  dsimp only
  rw [hop]
  dsimp only
  rw [start_bind, start_onCursor, hi]
  cases i <;> rfl

theorem start_next_of_step {r : Registry} {m m' : Machine} {op : Opcode} {i : Instruction}
    {c : Cursor} (h : m.cursor.fetch? = some (op, i, c)) (hi : i ≠ .stop)
    (hstep : (step r op i).start { m with cursor := c } = (.ok (), m')) :
    (next r).start m = (.ok none, m') := by
  rw [start_next_of_fetch? h, start_perform_of_ne_stop r op hi, hstep]
  rfl

/-- If none can be read the load ends, and only the cursor has moved. -/
theorem start_next_of_fetch?_eq_none {r : Registry} {m : Machine} (h : m.cursor.fetch? = none) :
    ∃ e c, (next r).start m = (.error e, { m with cursor := c }) := by
  rw [next, start_bind, start_get]
  dsimp only
  rw [start_bind, start_onCursor]
  cases hcode : (read Cursor.u8).result? m.cursor with
  | none =>
    obtain ⟨e, c, hread⟩ := result?_eq_none_iff.mp hcode
    rw [hread]
    exact ⟨e, c, rfl⟩
  | some o =>
    obtain ⟨code, c₁⟩ := o
    rw [result?_eq_some_iff.mp hcode]
    dsimp only
    cases hop : Opcode.ofByte? code with
    | none => exact ⟨_, c₁, rfl⟩
    | some op =>
      dsimp only
      rw [start_bind, start_onCursor]
      cases hi : (Fetch.instruction m.cursor.position op).result? c₁ with
      | none =>
        obtain ⟨e, c, hfetch⟩ := result?_eq_none_iff.mp hi
        rw [hfetch]
        exact ⟨e, c, rfl⟩
      | some o =>
        simp only [Cursor.fetch?, hcode, hop, hi, Option.bind_eq_bind, Option.bind_some,
          Option.pure_def] at h
        cases h

/-- The machine after `k` instructions, if none of them ends the load. -/
def after? (r : Registry) : Nat → Machine → Option Machine
  | 0, m => some m
  | k + 1, m =>
    match (next r).start m with
    | (.ok none, m) => after? r k m
    | _ => none

theorem after?_succ_iff {r : Registry} {k : Nat} {m m' : Machine} :
    m.after? r (k + 1) = some m' ↔
      ∃ m₁, (next r).start m = (.ok none, m₁) ∧ m₁.after? r k = some m' := by
  rw [after?]
  constructor
  · intro h
    split at h
    · next m₁ hn => exact ⟨m₁, hn, h⟩
    · cases h
  · rintro ⟨m₁, hn, h⟩
    rw [hn]
    exact h

theorem after?_add {r : Registry} {k : Nat} {m m' : Machine} (h : m.after? r k = some m')
    (n : Nat) : m.after? r (k + n) = m'.after? r n := by
  induction k generalizing m with
  | zero =>
    obtain rfl := Option.some.inj h
    rw [Nat.zero_add]
  | succ k ih =>
    obtain ⟨m₁, hn, h⟩ := after?_succ_iff.mp h
    rw [Nat.add_right_comm, after?, hn]
    exact ih h

theorem run_of_after? {r : Registry} {k : Nat} {m m' : Machine} (h : m.after? r k = some m')
    (n : Nat) : run r (k + n) m = run r n m' := by
  induction k generalizing m with
  | zero =>
    obtain rfl := Option.some.inj h
    rw [Nat.zero_add]
  | succ k ih =>
    obtain ⟨m₁, hn, h⟩ := after?_succ_iff.mp h
    rw [Nat.add_right_comm, run, hn]
    exact ih h

end Machine

end PickledModel
