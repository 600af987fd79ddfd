import Mathlib.Algebra.Ring.Int.Defs
import Mathlib.Algebra.Ring.Nat
import PickledModel.Proofs.Process.Commuting
import PickledModel.Proofs.Stream.FlatMachine
import PickledModel.Proofs.Stream.Instruction

/-! The segments of a machine, joined by markers, are a flat stack. Every process
on the stack commutes with the joining, so the two machines carry out the same
instructions with the same results, and fail at the same one with the same
error. What leaves the stack aside commutes because no stack changes it. -/

set_option autoImplicit false

namespace PickledModel

open Process

namespace Entry

theorem splitMarker?_segment (segment : List Slot) (below : List Entry) :
    splitMarker? (segment.map slot ++ marker :: below) = some (segment, below) := by
  induction segment with
  | nil => rfl
  | cons s segment ih => simp [splitMarker?, ih]

theorem splitMarker?_slots (slots : List Slot) : splitMarker? (slots.map slot) = none := by
  induction slots with
  | nil => rfl
  | cons s slots ih => simp [splitMarker?, ih]

/-- Slots are taken as far as the segment goes that they lie in. -/
theorem takeSlots?_segment (n : Nat) (segment : List Slot) {below : List Entry}
    (h : ∀ e ∈ below.head?, e = marker) :
    takeSlots? n (segment.map slot ++ below) =
      if (segment.take n).length < n then none
      else some (segment.take n, (segment.drop n).map slot ++ below) := by
  induction n generalizing segment with
  | zero => simp [takeSlots?]
  | succ n ih =>
    cases segment with
    | nil =>
      cases below with
      | nil => rfl
      | cons e below =>
        obtain rfl := h e rfl
        rfl
    | cons s segment =>
      rw [List.map_cons, List.cons_append, takeSlots?, ih]
      by_cases hn : (segment.take n).length < n
      · rw [if_pos hn, if_pos (by simpa using hn), Option.map_none]
      · rw [if_neg hn, if_neg (by simpa using hn), Option.map_some]
        rfl

end Entry

namespace Machine

def joined (suspended : List (List Slot)) : List Entry :=
  suspended.flatMap fun segment => .marker :: segment.map .slot

def flatten (m : Machine) : FlatMachine :=
  ⟨m.stack.map .slot ++ joined m.suspended, m.cursor, m.memo, m.copyLimit, m.allowance, m.reports⟩

def onto (stack : List Slot) (suspended : List (List Slot)) (m : Machine) : Machine :=
  { m with stack, suspended }

def Aside {α : Type} (p : Process Machine α) : Prop :=
  ∀ stack suspended, Commutes (onto stack suspended) p p

theorem head?_joined {suspended : List (List Slot)} : ∀ e ∈ (joined suspended).head?, e = .marker := by
  cases suspended with
  | nil => simp [joined]
  | cons segment suspended => simp [joined]

section
variable {α : Type}

theorem Aside.fail (op : Opcode) (c : Cause) : Aside (fail op c : Process Machine α) :=
  fun _ _ _ => rfl

theorem Aside.chargeCopy (op : Opcode) (v : Value) : Aside (chargeCopy op v) := by
  intro stack suspended
  apply Commutes.get_bind
  intro m
  dsimp only [onto]
  cases v.footprint? m.allowance <;> rfl

theorem Aside.copyMemo (op : Opcode) (index : Nat) : Aside (copyMemo op index) := by
  intro stack suspended
  apply Commutes.get_bind
  intro m
  dsimp only [onto]
  cases m.memo[index]? with
  | none => rfl
  | some h => exact ((Aside.chargeCopy op h.value stack suspended).bind fun _ => .pure h) m

theorem Aside.resolve (op : Opcode) (s : Slot) : Aside (resolve op s) := by
  intro stack suspended
  cases s with
  | owned h => exact .pure _
  | memo index => exact (Aside.copyMemo op index stack suspended).bind fun _ => .pure _

theorem Aside.resolveAll (op : Opcode) (slots : List Slot) : Aside (resolveAll op slots) :=
  fun stack suspended =>
    (Commutes.mapM slots fun s => Aside.resolve op s stack suspended).bind fun _ => .pure _

theorem Aside.checkDepth (op : Opcode) (depth : Nat) : Aside (checkDepth op depth) := by
  intro stack suspended
  unfold Machine.checkDepth
  split
  · exact Aside.fail op .tooDeep stack suspended
  · exact .pure _

theorem Aside.pairs (op : Opcode) (items : List Value) : Aside (pairs op items) := by
  intro stack suspended
  unfold Machine.pairs
  split
  · exact .pure _
  · exact Aside.fail op .oddEntries stack suspended

theorem Aside.arguments (op : Opcode) (v : Value) : Aside (arguments op v) := by
  intro stack suspended
  unfold Machine.arguments
  split
  · exact .pure _
  · exact Aside.fail op _ stack suspended

theorem Aside.onCursor (p : Process Cursor α) : Aside (onCursor p) :=
  fun _ _ => .on p (fun _ => rfl) fun _ _ => rfl

/-- Beside the stack the flat machine does what the machine with segments does. -/
theorem Aside.beside {p : Process Machine α} (h : Aside p) :
    Commutes flatten p (FlatMachine.beside p) := by
  intro m
  have hstack := h m.stack m.suspended m.flatten.besides
  change p.start m = _ at hstack
  rw [FlatMachine.beside, start_on, hstack]
  rfl

end

theorem fail_commutes {α : Type} (op : Opcode) (c : Cause) :
    Commutes flatten (fail op c : Process Machine α) (FlatMachine.fail op c) :=
  (Aside.fail op c).beside

theorem pushSlot_commutes (s : Slot) :
    Commutes flatten (pushSlot s) (FlatMachine.pushEntry (.slot s)) :=
  .modify fun _ => rfl

theorem push_commutes (op : Opcode) (inner : Nat) (v : Value) :
    Commutes flatten (push op inner v) (FlatMachine.push op inner v) :=
  (Aside.checkDepth op _).beside.bind fun _ => pushSlot_commutes _

theorem popSlot_commutes (op : Opcode) :
    Commutes flatten (popSlot op) (FlatMachine.popSlot op) := by
  apply Commutes.get_bind
  rintro ⟨c, _ | ⟨s, stack⟩, _ | ⟨segment, suspended⟩, memo, limit, allowance, reports⟩ <;> rfl

theorem topSlot_commutes (op : Opcode) :
    Commutes flatten (topSlot op) (FlatMachine.topSlot op) := by
  apply Commutes.get_bind
  rintro ⟨c, _ | ⟨s, stack⟩, _ | ⟨segment, suspended⟩, memo, limit, allowance, reports⟩ <;> rfl

theorem popMark_commutes (op : Opcode) :
    Commutes flatten (popMark op) (FlatMachine.popMarker op) := by
  apply Commutes.get_bind
  rintro ⟨c, stack, suspended, memo, limit, allowance, reports⟩
  cases suspended with
  | nil =>
    have hsplit : Entry.splitMarker? (stack.map .slot ++ joined []) = none := by
      rw [joined, List.flatMap_nil, List.append_nil, Entry.splitMarker?_slots]
    simp only [flatten, hsplit]
    exact fail_commutes op .noMark ⟨c, stack, [], memo, limit, allowance, reports⟩
  | cons segment suspended =>
    have hsplit : Entry.splitMarker? (stack.map .slot ++ joined (segment :: suspended)) =
        some (stack, segment.map .slot ++ joined suspended) := by
      rw [joined, List.flatMap_cons, List.cons_append, Entry.splitMarker?_segment]
      rfl
    simp only [flatten, hsplit]
    rfl

theorem popValue_commutes (op : Opcode) :
    Commutes flatten (popValue op) (FlatMachine.popValue op) :=
  (popSlot_commutes op).bind fun s => (Aside.resolve op s).beside

theorem popMarked_commutes (op : Opcode) :
    Commutes flatten (popMarked op) (FlatMachine.popMarked op) :=
  (popMark_commutes op).bind fun slots => (Aside.resolveAll op slots).beside

theorem popValues_commutes (op : Opcode) (n : Nat) :
    Commutes flatten (popValues op n) (FlatMachine.popValues op n) := by
  apply Commutes.get_bind
  intro m
  dsimp only [flatten]
  rw [Entry.takeSlots?_segment n m.stack head?_joined]
  by_cases hn : (m.stack.take n).length < n
  · rw [if_pos hn, if_pos hn]
    exact fail_commutes op .underflow m
  · rw [if_neg hn, if_neg hn]
    exact (Aside.resolveAll op _).beside (onto (m.stack.drop n) m.suspended m)

theorem modifyTop_commutes (f : Held → Held) :
    Commutes flatten (modifyTop f) (FlatMachine.modifyTop f) := by
  apply Commutes.modify
  rintro ⟨c, stack, suspended, memo, limit, allowance, reports⟩
  cases stack with
  | nil => cases suspended <;> rfl
  | cons s stack =>
    cases s with
    | owned h => rfl
    | memo index =>
      simp only [flatten, List.map_cons, List.cons_append]
      cases memo[index]? <;> rfl

theorem target_commutes (op : Opcode) (inner : Nat) :
    Commutes flatten (target op inner) (FlatMachine.target op inner) := by
  unfold target deepenTop FlatMachine.target
  rw [bind_assoc]
  apply (Aside.checkDepth op _).beside.bind
  intro _
  apply (modifyTop_commutes _).bind
  intro _
  apply Commutes.get_bind
  rintro ⟨c, stack, suspended, memo, limit, allowance, reports⟩
  cases stack with
  | nil => cases suspended <;> rfl
  | cons s stack =>
    cases s with
    | owned h => rfl
    | memo index =>
      simp only [flatten, List.map_cons, List.cons_append]
      cases memo[index]? <;> rfl

theorem setTarget_commutes (v : Value) :
    Commutes flatten (setTarget v) (FlatMachine.setTarget v) :=
  modifyTop_commutes _

theorem put_commutes (op : Opcode) (index : Nat) :
    Commutes flatten (put op index) (FlatMachine.put op index) := by
  have hbind : ∀ h : Held, Commutes flatten
      ((modify fun m : Machine => { m with memo := m.memo.insert index h }) >>= fun _ =>
        pushSlot (.memo index))
      ((modify fun m : FlatMachine => { m with memo := m.memo.insert index h }) >>= fun _ =>
        FlatMachine.pushEntry (.slot (.memo index))) :=
    fun h => (Commutes.modify (f := flatten) fun _ => rfl).bind fun _ => pushSlot_commutes _
  apply (popSlot_commutes op).bind
  intro s
  cases s with
  | owned h => exact hbind h
  | memo source =>
    by_cases hs : source = index
    · simp only [hs, if_true]
      exact pushSlot_commutes _
    · simp only [hs, if_false]
      exact (Aside.copyMemo op source).beside.bind hbind

theorem pushMemo_commutes (op : Opcode) (index : Nat) :
    Commutes flatten (pushMemo op index) (FlatMachine.pushMemo op index) := by
  apply Commutes.get_bind
  intro m
  dsimp only [flatten]
  cases m.memo.contains index with
  | true => exact pushSlot_commutes _ m
  | false => exact fail_commutes op _ m

theorem dup_commutes (op : Opcode) : Commutes flatten (dup op) (FlatMachine.dup op) := by
  apply (topSlot_commutes op).bind
  intro s
  cases s with
  | owned h => exact (Aside.chargeCopy op h.value).beside.bind fun _ => pushSlot_commutes _
  | memo index => exact pushSlot_commutes _

theorem extend_commutes (op : Opcode) (inner : Nat) (a : Addition Value) :
    Commutes flatten (extend op inner a) (FlatMachine.extend op inner a) := by
  apply (target_commutes op inner).bind
  intro v
  cases v.extend? a with
  | some w => exact setTarget_commutes _
  | none => exact fail_commutes op _

theorem call_commutes (r : Registry) (op : Opcode) (inner : Nat) (callee : Value)
    (args : List Value) :
    Commutes flatten (call r op inner callee args) (FlatMachine.call r op inner callee args) := by
  unfold call FlatMachine.call
  cases callee with
  | leaf l =>
    cases l with
    | global name =>
      apply (Commutes.ofExcept _).bind
      intro o
      exact (Commutes.modify (f := flatten) fun _ => rfl).bind fun _ => push_commutes op inner _
    | _ => exact fail_commutes op _
  | _ => exact fail_commutes op _

theorem buildTop_commutes (op : Opcode) (state : Held) :
    Commutes flatten (buildTop op state) (FlatMachine.buildTop op state) := by
  apply (target_commutes op _).bind
  intro v
  cases v with
  | object typeName body =>
    apply Commutes.get_bind
    intro m
    rcases hrestore : (Body.restore typeName state.value).start (body, m.cursor) with
      ⟨result, built, cursor⟩
    have hset : Commutes flatten (modify fun m : Machine => { m with cursor })
        (modify fun m : FlatMachine => { m with cursor }) := .modify fun _ => rfl
    have hafter := hset.bind fun _ => (setTarget_commutes (.object typeName built)).bind fun _ =>
      Commutes.ofExcept result
    dsimp only [flatten]
    rw [hrestore]
    exact hafter m
  | _ => exact fail_commutes op _

/-- `POP` removes a slot, or the mark of a segment without slots. -/
theorem pop_commutes (r : Registry) (op : Opcode) :
    Commutes flatten (step r op .pop) (FlatMachine.step r op .pop) := by
  apply Commutes.get_bind
  rintro ⟨c, _ | ⟨s, stack⟩, _ | ⟨segment, suspended⟩, memo, limit, allowance, reports⟩ <;> rfl

theorem move_commutes (r : Registry) (op : Opcode) {i : Instruction} (h : i.moves = true) :
    Commutes flatten (step r op i) (FlatMachine.step r op i) := by
  cases i with
  | nothing | stop => exact .pure _
  | inspect => exact (topSlot_commutes op).bind fun _ => .pure _
  | mark => exact .modify fun _ => rfl
  | pop => exact pop_commutes r op
  | popMark => exact (popMark_commutes op).bind fun _ => .pure _
  | dup => exact dup_commutes op
  | get index => exact pushMemo_commutes op index
  | put index => exact put_commutes op index
  | memoize =>
    apply Commutes.get_bind
    intro m
    dsimp only [flatten]
    by_cases hsize : m.memo.size < 2 ^ 32
    · simp only [hsize, if_true]
      exact put_commutes op _ m
    · simp only [hsize, if_false]
      exact fail_commutes op .memoFull m
  | _ => cases h

theorem make_commutes (r : Registry) (op : Opcode) {i : Instruction} (h : i.makes = true) :
    Commutes flatten (step r op i) (FlatMachine.step r op i) := by
  cases i with
  | tuple size => exact (popValues_commutes op size).bind fun _ => push_commutes op _ _
  | gather kind => exact (popMarked_commutes op).bind fun _ => push_commutes op _ _
  | gatherDict =>
    exact (popMarked_commutes op).bind fun g => (Aside.pairs op g.values).beside.bind fun _ =>
      push_commutes op _ _
  | stackGlobal =>
    apply (popValue_commutes op).bind
    rintro ⟨name, -⟩
    apply (popValue_commutes op).bind
    rintro ⟨module_, -⟩
    cases module_ with
    | leaf l =>
      cases l with
      | str m =>
        cases name with
        | leaf l =>
          cases l with
          | str n => exact push_commutes op 0 _
          | _ => exact fail_commutes op .notTwoStrings
        | _ => exact fail_commutes op .notTwoStrings
      | _ => exact fail_commutes op .notTwoStrings
    | _ => exact fail_commutes op .notTwoStrings
  | _ => cases h

theorem fill_commutes (r : Registry) (op : Opcode) {i : Instruction} (h : i.fills = true) :
    Commutes flatten (step r op i) (FlatMachine.step r op i) := by
  cases i with
  | append => exact (popValue_commutes op).bind fun _ => extend_commutes op _ _
  | appends => exact (popMarked_commutes op).bind fun _ => extend_commutes op _ _
  | setItem =>
    exact (popValue_commutes op).bind fun _ => (popValue_commutes op).bind fun _ =>
      extend_commutes op _ _
  | setItems =>
    exact (popMarked_commutes op).bind fun g => (Aside.pairs op g.values).beside.bind fun _ =>
      extend_commutes op _ _
  | addItems => exact (popMarked_commutes op).bind fun _ => extend_commutes op _ _
  | _ => cases h

theorem invoke_commutes (r : Registry) (op : Opcode) {i : Instruction} (h : i.calls = true) :
    Commutes flatten (step r op i) (FlatMachine.step r op i) := by
  cases i with
  | call =>
    exact (popValue_commutes op).bind fun args => (popValue_commutes op).bind fun _ =>
      (Aside.arguments op args.value).beside.bind fun _ => call_commutes r op _ _ _
  | callWithKeywords =>
    exact (popValue_commutes op).bind fun _ => (popValue_commutes op).bind fun args =>
      (popValue_commutes op).bind fun _ =>
        (Aside.arguments op args.value).beside.bind fun _ => call_commutes r op _ _ _
  | callMarked =>
    apply (popMarked_commutes op).bind
    rintro ⟨_ | ⟨callee, args⟩, depth⟩
    · exact fail_commutes op .noClass
    · exact call_commutes r op depth callee args
  | callNamed name => exact (popMarked_commutes op).bind fun _ => call_commutes r op _ _ _
  | _ => cases h

/-- An instruction does the same on the segments and on the flat stack. -/
theorem step_commutes (r : Registry) (op : Opcode) (i : Instruction) :
    Commutes flatten (step r op i) (FlatMachine.step r op i) := by
  cases i with
  | nothing | stop | inspect | mark | pop | popMark | dup | get | put | memoize =>
    exact move_commutes r op rfl
  | push v => exact push_commutes op 0 v
  | tuple | gather | gatherDict | stackGlobal => exact make_commutes r op rfl
  | append | appends | setItem | setItems | addItems => exact fill_commutes r op rfl
  | call | callWithKeywords | callMarked | callNamed => exact invoke_commutes r op rfl
  | build => exact (popValue_commutes op).bind fun _ => buildTop_commutes op _

theorem any_isMarker_flatten (m : Machine) :
    m.flatten.stack.any Entry.isMarker = !m.suspended.isEmpty := by
  have hslots : (m.stack.map Entry.slot).any Entry.isMarker = false := by
    simp [List.any_map, Entry.isMarker]
  rw [flatten, List.any_append, hslots, Bool.false_or]
  cases m.suspended <;> rfl

theorem finish_commutes : Commutes flatten finish FlatMachine.finish := by
  apply Commutes.get_bind
  intro m
  rw [any_isMarker_flatten]
  obtain ⟨c, stack, suspended, memo, limit, allowance, reports⟩ := m
  cases suspended with
  | cons segment suspended => rfl
  | nil =>
    match stack with
    | [] => rfl
    | [s] =>
      exact ((Aside.resolve .stop s).beside.map) ⟨c, [], [], memo, limit, allowance, reports⟩
    | s :: t :: slots =>
      have hlength : ((s :: t :: slots).map Entry.slot ++ joined []).length =
          (s :: t :: slots).length := by
        simp [joined]
      exact congrArg (fun n => (Except.error (LoadError.malformed (.leftover n)),
        (⟨[], c, memo, limit, allowance, reports⟩ : FlatMachine))) hlength

theorem next_commutes (r : Registry) : Commutes flatten (next r) (FlatMachine.next r) := by
  apply Commutes.get_bind
  intro m
  refine Commutes.bind (f := flatten) (Aside.onCursor _).beside ?_ m
  intro code
  cases Opcode.ofByte? code with
  | none => exact Commutes.get_bind fun _ => rfl
  | some op =>
    apply (Aside.onCursor _).beside.bind
    intro i
    have hstep : ∀ i, Commutes flatten (do step r op i; return none)
        (do FlatMachine.step r op i; return none) :=
      fun i => (step_commutes r op i).bind fun _ => .pure (none : Option Value)
    cases i with
    | stop => exact finish_commutes.map
    | _ => exact hstep _

/-- As many instructions are carried out on the flat stack. -/
theorem flatten_after? (r : Registry) (k : Nat) (m : Machine) :
    FlatMachine.after? r k m.flatten = (m.after? r k).map flatten := by
  induction k generalizing m with
  | zero => rfl
  | succ k ih =>
    rw [after?, FlatMachine.after?, next_commutes r m]
    rcases (next r).start m with ⟨e | _ | v, m'⟩
    · rfl
    · exact ih m'
    · rfl

theorem flatten_run (r : Registry) (bytes : Nat) (m : Machine) :
    FlatMachine.run r bytes m.flatten = ((run r bytes m).1, (run r bytes m).2.flatten) := by
  induction bytes generalizing m with
  | zero => rfl
  | succ bytes ih =>
    rw [run, FlatMachine.run, next_commutes r m]
    rcases (next r).start m with ⟨e | _ | v, m'⟩
    · rfl
    · exact ih m'
    · rfl

/-- Marks are entries of one flat stack: on every byte run the machine with
segments and the flat one carry out the same number of instructions, each
leading to the same stack, and end with the same value or the same error, at the
same position, with the same diagnostics. -/
theorem load_flatten (data : Bytes) (r : Registry) :
    (∀ k, (FlatMachine.ofBytes data).after? r k = ((ofBytes data).after? r k).map flatten) ∧
      (FlatMachine.ofBytes data).load r =
        (((ofBytes data).load r).1, ((ofBytes data).load r).2.flatten) ∧
      ((FlatMachine.ofBytes data).load r).2.diagnostics =
        ((ofBytes data).load r).2.diagnostics ∧
      ((FlatMachine.ofBytes data).load r).2.cursor = ((ofBytes data).load r).2.cursor := by
  have hload : (FlatMachine.ofBytes data).load r =
      (((ofBytes data).load r).1, ((ofBytes data).load r).2.flatten) :=
    flatten_run r data.length (ofBytes data)
  refine ⟨fun k => flatten_after? r k (ofBytes data), hload, ?_, ?_⟩
  · rw [hload]
    rfl
  · rw [hload]
    rfl

/-- `POP` right behind a mark takes the mark, and `TUPLE1` there finds no value. -/
example : ((FlatMachine.ofBytes [0x4e, 0x28, 0x30, 0x2e]).load .empty).1 = .ok .none := by cbv

example : ((FlatMachine.ofBytes [0x4e, 0x28, 0x85, 0x2e]).load .empty).1 =
    .error (.malformed (.cause .underflow .tuple1 3)) := by cbv

end Machine

end PickledModel
