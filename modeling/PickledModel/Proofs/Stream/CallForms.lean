import PickledModel.Proofs.Object.Refusal
import PickledModel.Proofs.Stream.Settling

/-! The five ways to call. An instruction takes a callee and its arguments from slots or out
of a tuple that was gathered from them, but what it takes is the same: the values that the
slots stand for. So the result, the reports and the errors of the call are the same too. -/

set_option autoImplicit false

namespace PickledModel

def Slot.global (name : String) : Slot := .owned ⟨.global name, 0⟩

def Fetch.Names (lines : Bytes) (name : String) : Prop :=
  ∀ p rest, globalName.start ⟨p, lines ++ rest⟩ = (.ok name, ⟨p + lines.length, rest⟩)

namespace Machine
open Process

variable {op : Opcode} {r : Registry} {m t u : Machine}

theorem resolves_global (name : String) (m : Machine) :
    m.Resolves (.global name) (.global name) := resolves_iff.mpr ⟨_, rfl, rfl⟩

/-- A global is not copied out of the memo. -/
theorem afforded_global (name : String) (slots : List Slot) (m : Machine) :
    m.afforded (.global name :: slots) = m.afforded slots := rfl

def tupleOpcode? : Nat → Option Opcode
  | 0 => some .emptyTuple
  | 1 => some .tuple1
  | 2 => some .tuple2
  | 3 => some .tuple3
  | _ => none

inductive TupleForm (data : Bytes) (slots : List Slot) : Bytes → Prop
  | marked : TupleForm data slots (Opcode.mark.code :: (data ++ [Opcode.tuple.code]))
  | sized {op : Opcode} (h : tupleOpcode? slots.length = some op) :
      TupleForm data slots (data ++ [op.code])

/-- The ways to call what two lines name with the slots that code supplies, and the machine
with the memo and the reports before the call. -/
inductive CallForm (r : Registry) (lines data : Bytes) (slots : List Slot) (m : Machine) :
    Bytes → Machine → Prop
  | reduce {tuple : Bytes} (h : TupleForm data slots tuple) : CallForm r lines data slots m
      (Opcode.global.code :: (lines ++ (tuple ++ [Opcode.reduce.code]))) m
  | newObj {tuple : Bytes} (h : TupleForm data slots tuple) : CallForm r lines data slots m
      (Opcode.global.code :: (lines ++ (tuple ++ [Opcode.newObj.code]))) m
  | newObjEx {tuple keywords : Bytes} {s : Slot} {v : Value} {t : Machine}
      (h : TupleForm data slots tuple) (hs : Supplies r keywords [s] (m.afforded slots) t)
      (hv : t.Resolves s v) : CallForm r lines data slots m
      (Opcode.global.code :: (lines ++ (tuple ++ (keywords ++ [Opcode.newObjEx.code])))) t
  | obj : CallForm r lines data slots m
      (Opcode.mark.code :: Opcode.global.code :: (lines ++ (data ++ [Opcode.obj.code]))) m
  | inst : CallForm r lines data slots m
      (Opcode.mark.code :: (data ++ Opcode.inst.code :: lines)) m

section
variable {data tuple lines code rest : Bytes} {slots stack : List Slot} {values : List Value}
  {suspended : List (List Slot)} {name : String} {p : Nat}

theorem leads_mark (stack : List Slot) (suspended : List (List Slot)) (p : Nat) (rest : Bytes) :
    Leads r ((onto stack suspended m).facing p (Opcode.mark.code :: rest))
      ((onto [] (stack :: suspended) m).facing (p + 1) rest) :=
  have hi : (Fetch.instruction p .mark).start ⟨p + 1, rest⟩ = (.ok .mark, ⟨p + 1, rest⟩) := rfl
  .next (start_next _ hi (by simp))

theorem leads_global (hlines : Fetch.Names lines name) (stack : List Slot)
    (suspended : List (List Slot)) (p : Nat) (rest : Bytes) :
    Leads r ((onto stack suspended m).facing p (Opcode.global.code :: (lines ++ rest)))
      ((onto (.global name :: stack) suspended m).facing (p + 1 + lines.length) rest) := by
  have hi : (Fetch.instruction p .global).start ⟨p + 1, lines ++ rest⟩ =
      (.ok (.push (.global name)), ⟨p + 1 + lines.length, rest⟩) := by
    rw [Fetch.instruction, start_bind, hlines]
    rfl
  have hnext := start_next (r := r) (onto stack suspended m) hi (by simp)
  have hdepth : levelsOver 0 (.global name) ≤ maxNesting := Nat.zero_le _
  rw [step, start_push _ hdepth] at hnext
  exact .next hnext

theorem pushTuple_gives {take : Process Machine Gathered} {depth : Nat}
    (h : Gives (take.start m) ⟨values, depth⟩ t) :
    Gives ((take >>= fun g => push op g.depth (.tuple g.values)).start m) ()
      { t with stack := .owned ⟨.tuple values, depth + 1⟩ :: t.stack } :=
  h.bind (push_gives op depth (.tuple values) t)

/-- `TUPLE` makes a tuple of what lies on the mark. -/
theorem gather_reaches (h : List.Forall₂ m.Resolves slots values) (stack : List Slot)
    (suspended : List (List Slot)) (p : Nat) (rest : Bytes) :
    ∃ depth, Reaches r
      ((onto slots.reverse (stack :: suspended) m).facing p (Opcode.tuple.code :: rest))
      ((onto (.owned ⟨.tuple values, depth⟩ :: stack) suspended (m.afforded slots)).facing (p + 1)
        rest) := by
  obtain ⟨depth, hgives⟩ :=
    popMarked_gives (t := m.facing (p + 1) rest) .tuple h rfl stack suspended
  have hi : (Fetch.instruction p .tuple).start ⟨p + 1, rest⟩ =
      (.ok (.gather .tuple), ⟨p + 1, rest⟩) := rfl
  exact ⟨_, reaches_of_gives [] hi (by simp) (pushTuple_gives hgives)⟩

/-- The opcode of a tuple size makes the tuple. -/
theorem sized_reaches (hop : tupleOpcode? slots.length = some op)
    (h : List.Forall₂ m.Resolves slots values) (stack : List Slot)
    (suspended : List (List Slot)) (p : Nat) (rest : Bytes) :
    ∃ depth, Reaches r ((onto (slots.reverse ++ stack) suspended m).facing p (op.code :: rest))
      ((onto (.owned ⟨.tuple values, depth⟩ :: stack) suspended (m.afforded slots)).facing (p + 1)
        rest) := by
  have hsized : ∀ op, (Fetch.instruction p op).start ⟨p + 1, rest⟩ =
      (.ok (.tuple slots.length), ⟨p + 1, rest⟩) → ∃ depth, Reaches r
        ((onto (slots.reverse ++ stack) suspended m).facing p (op.code :: rest))
        ((onto (.owned ⟨.tuple values, depth⟩ :: stack) suspended (m.afforded slots)).facing (p + 1)
          rest) := by
    intro op hi
    obtain ⟨depth, hgives⟩ := popValues_gives (t := m.facing (p + 1) rest) op h rfl stack suspended
    exact ⟨_, reaches_of_gives [] hi (by simp) (pushTuple_gives hgives)⟩
  match slots, h with
  | [], .nil =>
    cases hop
    have hgives :=
      push_gives .emptyTuple 0 (.tuple []) (onto stack suspended (m.facing (p + 1) rest))
    have hi : (Fetch.instruction p .emptyTuple).start ⟨p + 1, rest⟩ =
        (.ok (.push (.tuple [])), ⟨p + 1, rest⟩) := rfl
    exact ⟨_, reaches_of_gives [] hi (by simp) hgives⟩
  | [_], _ | [_, _], _ | [_, _, _], _ =>
    cases hop
    exact hsized _ rfl
  | _ :: _ :: _ :: _ :: _, _ => cases hop

theorem TupleForm.reaches (h : TupleForm data slots tuple) (hdata : Supplies r data slots m t)
    (hvalues : List.Forall₂ t.Resolves slots values) (stack : List Slot)
    (suspended : List (List Slot)) (p : Nat) (rest : Bytes) :
    ∃ depth, Reaches r ((onto stack suspended m).facing p (tuple ++ rest))
      ((onto (.owned ⟨.tuple values, depth⟩ :: stack) suspended (t.afforded slots)).facing
        (p + tuple.length) rest) := by
  cases h with
  | marked =>
    have hmark := leads_mark (r := r) (m := m) stack suspended p (data ++ Opcode.tuple.code :: rest)
    have hleads := hdata.leads [] (stack :: suspended) (p + 1) (Opcode.tuple.code :: rest)
    rw [List.append_nil] at hleads
    obtain ⟨depth, hreaches⟩ := gather_reaches (r := r) hvalues stack suspended
      (p + 1 + data.length) rest
    have hlength : p + (Opcode.mark.code :: (data ++ [Opcode.tuple.code])).length =
        p + 1 + data.length + 1 := by
      simp only [List.length_cons, List.length_append, List.length_nil]
      omega
    refine ⟨depth, ?_⟩
    rw [hlength, List.cons_append, List.append_assoc]
    exact Reaches.trans (.inl (hmark.trans hleads)) hreaches
  | @sized op hop =>
    have hleads := hdata.leads stack suspended p (op.code :: rest)
    obtain ⟨depth, hreaches⟩ := sized_reaches (r := r) hop hvalues stack suspended
      (p + data.length) rest
    refine ⟨depth, ?_⟩
    rw [List.append_assoc, List.length_append]
    exact Reaches.trans (.inl hleads) hreaches

/-- The instruction of `REDUCE` and `NEWOBJ` settles the call of what lies on the stack. -/
theorem call_settles {args : Nat} (hi : (Fetch.instruction p op).start ⟨p + 1, rest⟩ =
      (.ok .call, ⟨p + 1, rest⟩)) (m : Machine) :
    Settles r (Call.run r name values)
      ((onto (.owned ⟨.tuple values, args⟩ :: .global name :: stack) suspended m).facing p
        (op.code :: rest))
      ((onto stack suspended m).facing (p + 1) rest) :=
  settles_of_invocation [] _ hi rfl (.inl rfl)

/-- The keywords are taken from the stack, and that is all. -/
theorem callWithKeywords_settles {args : Nat} {s : Slot} {v : Value} (hv : m.Resolves s v) :
    Settles r (Call.run r name values)
      ((onto (s :: .owned ⟨.tuple values, args⟩ :: .global name :: stack) suspended m).facing p
        (Opcode.newObjEx.code :: rest))
      ((onto stack suspended m).facing (p + 1) rest) := by
  let below : List Slot := .owned ⟨.tuple values, args⟩ :: .global name :: stack
  let start := onto (s :: below) suspended m
  obtain ⟨depth, hkeywords⟩ :=
    popValue_gives (t := start.facing (p + 1) rest) .newObjEx hv rfl rfl
  have hi : (Fetch.instruction p .newObjEx).start ⟨p + 1, rest⟩ =
      (.ok .callWithKeywords, ⟨p + 1, rest⟩) := rfl
  apply Settles.of_allowance (m.afforded [s]).allowance
  exact settles_of_invocation (m := start) (t := onto stack suspended (m.afforded [s])) [] _ hi rfl
    (hkeywords.bind (.inl rfl))

/-- What lies lowest on the mark is called with the rest. -/
theorem callMarked_settles (h : List.Forall₂ m.Resolves slots values) :
    Settles r (Call.run r name values)
      ((onto (slots.reverse ++ [.global name]) (stack :: suspended) m).facing p
        (Opcode.obj.code :: rest))
      ((onto stack suspended m).facing (p + 1) rest) := by
  have hall := List.Forall₂.cons (resolves_global name m) h
  obtain ⟨depth, hmarked⟩ :=
    popMarked_gives (t := m.facing (p + 1) rest) .obj hall rfl stack suspended
  rw [List.reverse_cons, afforded_global] at hmarked
  have hi : (Fetch.instruction p .obj).start ⟨p + 1, rest⟩ =
      (.ok .callMarked, ⟨p + 1, rest⟩) := rfl
  apply Settles.of_allowance (m.afforded slots).allowance
  refine settles_of_invocation (m := onto (slots.reverse ++ [.global name]) (stack :: suspended) m)
    (t := onto stack suspended (m.afforded slots)) [] depth hi rfl ?_
  exact hmarked.bind (.inl rfl)

theorem callNamed_settles (hlines : Fetch.Names lines name)
    (h : List.Forall₂ m.Resolves slots values) :
    Settles r (Call.run r name values)
      ((onto slots.reverse (stack :: suspended) m).facing p (Opcode.inst.code :: (lines ++ rest)))
      ((onto stack suspended m).facing (p + 1 + lines.length) rest) := by
  have hi : (Fetch.instruction p .inst).start ⟨p + 1, lines ++ rest⟩ =
      (.ok (.callNamed name), ⟨p + 1 + lines.length, rest⟩) := by
    rw [Fetch.instruction, start_map, hlines]
    rfl
  obtain ⟨depth, hmarked⟩ :=
    popMarked_gives (t := m.facing (p + 1 + lines.length) rest) .inst h rfl stack suspended
  apply Settles.of_allowance (m.afforded slots).allowance
  exact settles_of_invocation (m := onto slots.reverse (stack :: suspended) m)
    (t := onto stack suspended (m.afforded slots)) lines depth hi rfl (hmarked.bind (.inl rfl))

/-- The global and the tuple of the arguments get onto the stack. -/
theorem tupled_reaches (hlines : Fetch.Names lines name) (htuple : TupleForm data slots tuple)
    (hdata : Supplies r data slots m t) (hvalues : List.Forall₂ t.Resolves slots values)
    (stack : List Slot) (suspended : List (List Slot)) (p : Nat) (rest : Bytes) :
    ∃ depth, Reaches r
      ((onto stack suspended m).facing p (Opcode.global.code :: (lines ++ (tuple ++ rest))))
      ((onto (.owned ⟨.tuple values, depth⟩ :: .global name :: stack) suspended
        (t.afforded slots)).facing (p + 1 + lines.length + tuple.length) rest) := by
  have hglobal := leads_global (r := r) (m := m) hlines stack suspended p (tuple ++ rest)
  obtain ⟨depth, htupled⟩ := htuple.reaches hdata hvalues (.global name :: stack) suspended
    (p + 1 + lines.length) rest
  exact ⟨depth, Reaches.trans (.inl hglobal) htupled⟩

/-- `REDUCE` and `NEWOBJ` settle the call of a global with a tuple. -/
theorem tupled_settles (hi : ∀ p rest, (Fetch.instruction p op).start ⟨p + 1, rest⟩ =
      (.ok .call, ⟨p + 1, rest⟩))
    (hlines : Fetch.Names lines name) (htuple : TupleForm data slots tuple)
    (hdata : Supplies r data slots m t) (hvalues : List.Forall₂ t.Resolves slots values)
    (stack : List Slot) (suspended : List (List Slot)) (p : Nat) (rest : Bytes) :
    Settles r (Call.run r name values)
      ((onto stack suspended m).facing p
        ((Opcode.global.code :: (lines ++ (tuple ++ [op.code]))) ++ rest))
      ((onto stack suspended t).facing
        (p + (Opcode.global.code :: (lines ++ (tuple ++ [op.code]))).length) rest) := by
  let q := p + 1 + lines.length + tuple.length
  obtain ⟨depth, hreaches⟩ :=
    tupled_reaches hlines htuple hdata hvalues stack suspended p (op.code :: rest)
  have hlength : p + (Opcode.global.code :: (lines ++ (tuple ++ [op.code]))).length = q + 1 := by
    simp only [q, List.length_cons, List.length_append, List.length_nil]
    omega
  rw [hlength]
  simp only [List.cons_append, List.append_assoc, List.nil_append]
  apply Settles.of_allowance (t.afforded slots).allowance
  apply hreaches.settles (call_settles (hi q rest) (t.afforded slots))
  simp [facing, Cursor.size]

/-- Each form settles the call. -/
theorem CallForm.settles (hcode : CallForm r lines data slots t code u)
    (hlines : Fetch.Names lines name) (hdata : Supplies r data slots m t)
    (hvalues : List.Forall₂ t.Resolves slots values) (stack : List Slot)
    (suspended : List (List Slot)) (p : Nat) (rest : Bytes) :
    Settles r (Call.run r name values) ((onto stack suspended m).facing p (code ++ rest))
      ((onto stack suspended u).facing (p + code.length) rest) := by
  -- a form is followed part by part up to its call, and all forms make the same call
  cases hcode with
  | reduce h => exact tupled_settles (fun _ _ => rfl) hlines h hdata hvalues stack suspended p rest
  | newObj h => exact tupled_settles (fun _ _ => rfl) hlines h hdata hvalues stack suspended p rest
  | @newObjEx tuple keywords s v _ h hs hv =>
    let q := p + 1 + lines.length + tuple.length
    obtain ⟨depth, hreaches⟩ := tupled_reaches hlines h hdata hvalues stack suspended p
      (keywords ++ Opcode.newObjEx.code :: rest)
    have hleads := hs.leads (.owned ⟨.tuple values, depth⟩ :: .global name :: stack) suspended q
      (Opcode.newObjEx.code :: rest)
    have hlength : p + (Opcode.global.code :: (lines ++ (tuple ++ (keywords ++
        [Opcode.newObjEx.code])))).length = q + keywords.length + 1 := by
      simp only [q, List.length_cons, List.length_append, List.length_nil]
      omega
    rw [hlength]
    simp only [List.cons_append, List.append_assoc, List.nil_append]
    apply hreaches.settles (hleads.settles (callWithKeywords_settles hv))
    simp only [facing, Cursor.size, List.length_append, List.length_cons]
    omega
  | obj =>
    have hmark := leads_mark (r := r) (m := m) stack suspended p
      (Opcode.global.code :: (lines ++ (data ++ Opcode.obj.code :: rest)))
    have hglobal := leads_global (r := r) (m := m) hlines [] (stack :: suspended) (p + 1)
      (data ++ Opcode.obj.code :: rest)
    have hleads := hdata.leads [.global name] (stack :: suspended) (p + 1 + 1 + lines.length)
      (Opcode.obj.code :: rest)
    have hlength : p + (Opcode.mark.code :: Opcode.global.code ::
        (lines ++ (data ++ [Opcode.obj.code]))).length =
        p + 1 + 1 + lines.length + data.length + 1 := by
      simp only [List.length_cons, List.length_append, List.length_nil]
      omega
    rw [hlength]
    simp only [List.cons_append, List.append_assoc, List.nil_append]
    exact (hmark.trans (hglobal.trans hleads)).settles (callMarked_settles hvalues)
  | inst =>
    have hmark := leads_mark (r := r) (m := m) stack suspended p
      (data ++ Opcode.inst.code :: (lines ++ rest))
    have hleads := hdata.leads [] (stack :: suspended) (p + 1) (Opcode.inst.code :: (lines ++ rest))
    rw [List.append_nil] at hleads
    have hlength : p + (Opcode.mark.code :: (data ++ Opcode.inst.code :: lines)).length =
        p + 1 + data.length + 1 + lines.length := by
      simp only [List.length_cons, List.length_append]
      omega
    rw [hlength]
    simp only [List.cons_append, List.append_assoc]
    exact (hmark.trans hleads).settles (callNamed_settles hlines hvalues)

end

/-- The five ways to call are one call. Whatever the arguments are, the call gives a value or
one of the two errors of calls; and each form, from every machine, gets the same value onto
the stack and the same name into the reports, or ends with the same error, unless a limit is
in the way. -/
theorem call_forms_agree {module_ name data : Bytes} {slots : List Slot} {values : List Value}
    (hmodule : 0x0a ∉ module_) (hname : 0x0a ∉ name) (hdata : Supplies r data slots m t)
    (hvalues : List.Forall₂ t.Resolves slots values) :
    Call.Refusable (Call.run r (Fetch.dotted module_ name) values) ∧
    ∀ code u, CallForm r (Fetch.globalLines module_ name) data slots t code u →
      ∀ p rest, Settles r (Call.run r (Fetch.dotted module_ name) values)
        (m.facing p (code ++ rest))
        ((onto m.stack m.suspended u).facing (p + code.length) rest) := by
  refine ⟨Call.run_refusable r _ values, ?_⟩
  intro code u hcode p rest
  have hlines := Fetch.start_globalLines hmodule hname
  exact hcode.settles hlines hdata hvalues m.stack m.suspended p rest

/-- A global that no rule resolves, called with the integer one in each form; and a set that
is to be made of that integer. -/
theorem call_forms_agree_unresolved :
    let made : Call.Outcome := ⟨.object "a.B" .unresolved, some "a.B"⟩
    0x0a ∉ ([0x61] : Bytes) ∧ 0x0a ∉ ([0x42] : Bytes) ∧
    Supplies .empty [0x4b, 1] [.owned ⟨.int 1, 0⟩] (ofBytes []) (ofBytes []) ∧
    List.Forall₂ (ofBytes []).Resolves [.owned ⟨.int 1, 0⟩] [.int 1] ∧
    Settles .empty (.ok made)
      ((ofBytes []).facing 0 [0x63, 0x61, 0x0a, 0x42, 0x0a, 0x4b, 1, 0x85, 0x52])
      ((ofBytes []).facing 9 []) ∧
    Settles .empty (.ok made)
      ((ofBytes []).facing 0 [0x63, 0x61, 0x0a, 0x42, 0x0a, 0x4b, 1, 0x85, 0x81])
      ((ofBytes []).facing 9 []) ∧
    Settles .empty (.ok made)
      ((ofBytes []).facing 0 [0x63, 0x61, 0x0a, 0x42, 0x0a, 0x4b, 1, 0x85, 0x7d, 0x92])
      ((ofBytes []).facing 10 []) ∧
    Settles .empty (.ok made)
      ((ofBytes []).facing 0 [0x28, 0x63, 0x61, 0x0a, 0x42, 0x0a, 0x4b, 1, 0x6f])
      ((ofBytes []).facing 9 []) ∧
    Settles .empty (.ok made)
      ((ofBytes []).facing 0 [0x28, 0x4b, 1, 0x69, 0x61, 0x0a, 0x42, 0x0a])
      ((ofBytes []).facing 8 []) ∧
    Settles .empty (.error (.malformedState "builtins.set" .noSequence))
      ((ofBytes []).facing 0 [0x63, 0x62, 0x75, 0x69, 0x6c, 0x74, 0x69, 0x6e, 0x73, 0x0a,
        0x73, 0x65, 0x74, 0x0a, 0x4b, 1, 0x85, 0x52])
      ((ofBytes []).facing 18 []) := by
  intro made
  have hmodule : 0x0a ∉ ([0x61] : Bytes) := by decide
  have hname : 0x0a ∉ ([0x42] : Bytes) := by decide
  have hdata : Supplies .empty [0x4b, 1] [.owned ⟨.int 1, 0⟩] (ofBytes []) (ofBytes []) :=
    ⟨1, rfl⟩
  have hvalues : List.Forall₂ (ofBytes []).Resolves [.owned ⟨.int 1, 0⟩] [.int 1] :=
    .cons (resolves_iff.mpr ⟨_, rfl, rfl⟩) .nil
  obtain ⟨-, hforms⟩ := call_forms_agree hmodule hname hdata hvalues
  have hrun : Call.run .empty (Fetch.dotted [0x61] [0x42]) [.int 1] = .ok made := rfl
  rw [hrun] at hforms
  -- the keywords are an empty dict
  have hkeywords : Supplies .empty [0x7d] [.owned ⟨.dict [], 1⟩] (ofBytes []) (ofBytes []) :=
    ⟨1, rfl⟩
  have hdict : (ofBytes []).Resolves (.owned ⟨.dict [], 1⟩) (.dict []) :=
    resolves_iff.mpr ⟨_, rfl, rfl⟩
  have hbuiltins : 0x0a ∉ ([0x62, 0x75, 0x69, 0x6c, 0x74, 0x69, 0x6e, 0x73] : Bytes) := by decide
  have hset : 0x0a ∉ ([0x73, 0x65, 0x74] : Bytes) := by decide
  obtain ⟨-, hrefuses⟩ := call_forms_agree hbuiltins hset hdata hvalues
  have hrefused : Call.run .empty (Fetch.dotted [0x62, 0x75, 0x69, 0x6c, 0x74, 0x69, 0x6e, 0x73]
      [0x73, 0x65, 0x74]) [.int 1] = .error (.malformedState "builtins.set" .noSequence) := rfl
  rw [hrefused] at hrefuses
  refine ⟨hmodule, hname, hdata, hvalues, ?_, ?_, ?_, ?_, ?_, ?_⟩
  · exact hforms _ _ (.reduce (.sized rfl)) 0 []
  · exact hforms _ _ (.newObj (.sized rfl)) 0 []
  · exact hforms _ _ (.newObjEx (.sized rfl) hkeywords hdict) 0 []
  · exact hforms _ _ .obj 0 []
  · exact hforms _ _ .inst 0 []
  · exact hrefuses _ _ (.reduce (.sized rfl)) 0 []

end Machine

end PickledModel
