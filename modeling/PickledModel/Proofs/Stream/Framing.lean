import PickledModel.Proofs.Process.Outcome
import PickledModel.Proofs.Stream.Segments
import PickledModel.Proofs.Stream.Transfer

/-! The frame of a run. Code that ends as it began, on a stack of its own without open
marks, never looks at what lies below it. So it does the same on every other stack, and at
every other place of a stream. -/

set_option autoImplicit false

namespace PickledModel

namespace Process

variable {σ α β : Type} {f : σ → σ}

/-- What a process does from a state, if it succeeds, it does from the image of the state. -/
def FramesAt (f : σ → σ) (p : Process σ α) (s : σ) : Prop :=
  ∀ a t, p.start s = (.ok a, t) → p.start (f s) = (.ok a, f t)

def Frames (f : σ → σ) (p : Process σ α) : Prop := ∀ s, FramesAt f p s

theorem FramesAt.bind_of {p : Process σ α} {g : α → Process σ β} {s : σ} (hp : FramesAt f p s)
    (hg : ∀ a t, p.start s = (.ok a, t) → FramesAt f (g a) t) : FramesAt f (p >>= g) s := by
  intro b u h
  obtain ⟨a, t, ha, hb⟩ := start_bind_ok h
  rw [start_bind, hp a t ha]
  exact hg a t ha b u hb

namespace Frames

theorem of_commutes {p : Process σ α} (h : Commutes f p p) : Frames f p := by
  intro s a t hs
  rw [h s, hs]

theorem pure (a : α) : Frames f (Pure.pure a : Process σ α) := of_commutes (.pure a)

theorem bind {p : Process σ α} {g : α → Process σ β} (hp : Frames f p)
    (hg : ∀ a, Frames f (g a)) : Frames f (p >>= g) :=
  fun s => (hp s).bind_of fun a t _ => hg a t

theorem modify {g : σ → σ} (h : ∀ s, g (f s) = f (g s)) :
    Frames f (modify g : Process σ PUnit) := of_commutes (.modify h)

/-- A look at the state goes before processes that do the same from it. -/
theorem look {g : σ → Process σ α}
    (h : ∀ s a t, (g s).start s = (.ok a, t) → (g (f s)).start (f s) = (.ok a, f t)) :
    Frames f (get >>= g) := h

/-- A look at what the map leaves alone. -/
theorem look_same {g : σ → Process σ α} (hsame : ∀ s, g (f s) = g s)
    (hg : ∀ s, Frames f (g s)) : Frames f (get >>= g) := by
  apply look
  intro s a t h
  rw [hsame]
  exact hg s s a t h

end Frames

end Process

namespace Entry

theorem splitMarker?_append {entries rest : List Entry} {slots : List Slot}
    (h : splitMarker? entries = some (slots, rest)) (below : List Entry) :
    splitMarker? (entries ++ below) = some (slots, rest ++ below) := by
  induction entries generalizing slots with
  | nil => cases h
  | cons e entries ih =>
    cases e with
    | marker =>
      cases h
      rfl
    | slot s =>
      obtain ⟨⟨slots, rest⟩, hsplit, heq⟩ := Option.map_eq_some_iff.mp h
      cases heq
      rw [List.cons_append, splitMarker?, ih hsplit]
      rfl

theorem takeSlots?_append {n : Nat} {entries rest : List Entry} {slots : List Slot}
    (h : takeSlots? n entries = some (slots, rest)) (below : List Entry) :
    takeSlots? n (entries ++ below) = some (slots, rest ++ below) := by
  induction n generalizing entries slots with
  | zero =>
    cases h
    rfl
  | succ n ih =>
    match entries with
    | [] => cases h
    | .marker :: entries => cases h
    | .slot s :: entries =>
      obtain ⟨⟨slots, rest⟩, htake, heq⟩ := Option.map_eq_some_iff.mp h
      cases heq
      rw [List.cons_append, takeSlots?, ih htake]
      rfl

end Entry

namespace FlatMachine
open Process

def atop (below : List Entry) (m : FlatMachine) : FlatMachine :=
  { m with stack := m.stack ++ below }

variable {α : Type} {below : List Entry}

theorem beside_frames (p : Process Machine α) : Frames (atop below) (beside p) :=
  .of_commutes fun _ => rfl

theorem fail_frames (op : Opcode) (c : Cause) :
    Frames (atop below) (fail op c : Process FlatMachine α) := beside_frames _

theorem pushEntry_frames (e : Entry) : Frames (atop below) (pushEntry e) :=
  .modify fun _ => rfl

theorem push_frames (op : Opcode) (inner : Nat) (v : Value) :
    Frames (atop below) (push op inner v) :=
  (beside_frames _).bind fun _ => pushEntry_frames _

theorem popEntry_frames (op : Opcode) : Frames (atop below) (popEntry op) := by
  apply Frames.look
  rintro ⟨_ | ⟨e, stack⟩, c, memo, limit, allowance, reports⟩ _ t h <;> cases h
  rfl

theorem popSlot_frames (op : Opcode) : Frames (atop below) (popSlot op) := by
  apply Frames.look
  rintro ⟨_ | ⟨_ | _, stack⟩, c, memo, limit, allowance, reports⟩ _ t h <;> cases h
  rfl

theorem topSlot_frames (op : Opcode) : Frames (atop below) (topSlot op) := by
  apply Frames.look
  rintro ⟨_ | ⟨_ | _, stack⟩, c, memo, limit, allowance, reports⟩ _ t h <;> cases h
  rfl

theorem popMarker_frames (op : Opcode) : Frames (atop below) (popMarker op) := by
  apply Frames.look
  intro m slots t h
  cases hsplit : Entry.splitMarker? m.stack with
  | none =>
    simp only [hsplit] at h
    cases h
  | some o =>
    simp only [hsplit] at h
    cases h
    simp only [atop, Entry.splitMarker?_append hsplit]
    rfl

theorem popValue_frames (op : Opcode) : Frames (atop below) (popValue op) :=
  (popSlot_frames op).bind fun _ => beside_frames _

theorem popMarked_frames (op : Opcode) : Frames (atop below) (popMarked op) :=
  (popMarker_frames op).bind fun _ => beside_frames _

theorem popValues_frames (op : Opcode) (n : Nat) : Frames (atop below) (popValues op n) := by
  apply Frames.look
  intro m g t h
  cases htake : Entry.takeSlots? n m.stack with
  | none =>
    simp only [htake] at h
    cases h
  | some o =>
    obtain ⟨slots, stack⟩ := o
    simp only [htake] at h
    simp only [atop, Entry.takeSlots?_append htake]
    exact beside_frames (Machine.resolveAll op slots.reverse) { m with stack } g t h

def Topped (m : FlatMachine) : Prop := ∃ s stack, m.stack = .slot s :: stack

/-- What is changed lies in the machine's own entries. -/
theorem modifyTop_framesAt (g : Held → Held) {m : FlatMachine} (hm : m.Topped) :
    FramesAt (atop below) (modifyTop g) m := by
  obtain ⟨stack, c, memo, limit, allowance, reports⟩ := m
  obtain ⟨s, stack, rfl⟩ := hm
  rintro _ t ⟨⟩
  cases s with
  | owned h => rfl
  | memo index =>
    simp only [modifyTop, start_modify, atop, List.cons_append]
    cases memo[index]? <;> rfl

/-- What is on top when a target is found is the slot of the target, and it is found with
other entries below as well. -/
theorem target_found (below : List Entry) {op : Opcode} {inner : Nat} {v : Value}
    {m t : FlatMachine} (h : (target op inner).start m = (.ok v, t)) :
    t.Topped ∧ (target op inner).start (atop below m) = (.ok v, atop below t) := by
  obtain ⟨_, m', hbeside, h⟩ := start_bind_ok h
  rw [target, start_bind, beside_frames _ _ _ _ hbeside]
  obtain ⟨stack, c, memo, limit, allowance, reports⟩ := m'
  match stack with
  | [] => cases h
  | .marker :: stack => cases h
  | .slot (.owned g) :: stack =>
    cases h
    exact ⟨⟨_, _, rfl⟩, rfl⟩
  | .slot (.memo index) :: stack =>
    cases hk : memo[index]? with
    | none =>
      simp only [start_bind, modifyTop, start_modify, hk, start_get] at h
      cases h
    | some g =>
      simp only [start_bind, modifyTop, start_modify, hk, start_get, atop, List.cons_append,
        Std.TreeMap.getElem?_insert_self] at h ⊢
      cases h
      exact ⟨⟨_, _, rfl⟩, rfl⟩

/-- A target is found among the machine's own entries, and set there. -/
theorem target_bind_frames (op : Opcode) (inner : Nat) {g : Value → Process FlatMachine α}
    (hg : ∀ v m, m.Topped → FramesAt (atop below) (g v) m) :
    Frames (atop below) (target op inner >>= g) :=
  fun _ => .bind_of (fun _ _ h => (target_found below h).2) fun v t h =>
    hg v t (target_found below h).1

theorem setTarget_framesAt (v : Value) {m : FlatMachine} (hm : m.Topped) :
    FramesAt (atop below) (setTarget v) m := modifyTop_framesAt _ hm

theorem put_frames (op : Opcode) (index : Nat) : Frames (atop below) (put op index) := by
  have hbind : ∀ h : Held, Frames (atop below) (do
      modify fun m : FlatMachine => { m with memo := m.memo.insert index h }
      pushEntry (.slot (.memo index))) := by
    intro h
    apply Frames.bind
    · exact .modify fun _ => rfl
    · exact fun _ => pushEntry_frames _
  apply (popSlot_frames op).bind
  intro s
  cases s with
  | owned h => exact hbind h
  | memo source =>
    dsimp only
    split
    · exact pushEntry_frames _
    · exact (beside_frames _).bind hbind

theorem pushMemo_frames (op : Opcode) (index : Nat) :
    Frames (atop below) (pushMemo op index) := by
  apply Frames.look_same
  · exact fun _ => rfl
  · intro m
    split
    · exact pushEntry_frames _
    · exact fail_frames _ _

theorem dup_frames (op : Opcode) : Frames (atop below) (dup op) := by
  apply (topSlot_frames op).bind
  intro s
  cases s with
  | owned h => exact (beside_frames _).bind fun _ => pushEntry_frames _
  | memo index => exact pushEntry_frames _

theorem extend_frames (op : Opcode) (inner : Nat) (a : Addition Value) :
    Frames (atop below) (extend op inner a) := by
  apply target_bind_frames
  intro v m hm
  split
  · exact setTarget_framesAt _ hm
  · exact fail_frames _ _ m

theorem ofExcept_frames (r : Except LoadError α) :
    Frames (atop below) (Process.ofExcept r : Process FlatMachine α) :=
  .of_commutes (.ofExcept r)

theorem call_frames (r : Registry) (op : Opcode) (inner : Nat) (callee : Value)
    (args : List Value) : Frames (atop below) (call r op inner callee args) := by
  unfold call
  split
  · apply (ofExcept_frames _).bind
    intro result
    apply Frames.bind
    · exact .modify fun _ => rfl
    · exact fun _ => push_frames op inner _
  · exact fail_frames _ _

theorem buildTop_frames (op : Opcode) (state : Held) :
    Frames (atop below) (buildTop op state) := by
  apply target_bind_frames
  intro v m hm
  split
  · next typeName body =>
    intro a t h
    rw [start_bind, start_get] at h ⊢
    rcases hrestore : (Body.restore typeName state.value).start (body, m.cursor) with
      ⟨result, built, cursor⟩
    simp only [hrestore, atop] at h ⊢
    have hset : FramesAt (atop below) (setTarget (.object typeName built)) { m with cursor } :=
      setTarget_framesAt _ hm
    exact hset.bind_of (fun _ u _ => ofExcept_frames result u) a t h
  · exact fail_frames _ _ m

/-- An instruction that succeeds does the same with more below. -/
theorem move_frames (r : Registry) (op : Opcode) {i : Instruction} (h : i.moves = true) :
    Frames (atop below) (step r op i) := by
  cases i with
  | nothing | stop => exact .pure ()
  | inspect => exact (topSlot_frames op).bind fun _ => .pure ()
  | mark => exact pushEntry_frames _
  | pop => exact popEntry_frames op
  | popMark => exact (popMarker_frames op).bind fun _ => .pure ()
  | dup => exact dup_frames op
  | get index => exact pushMemo_frames op index
  | put index => exact put_frames op index
  | memoize =>
    apply Frames.look_same
    · exact fun _ => rfl
    · intro m
      dsimp only
      split
      · exact put_frames op _
      · exact fail_frames op _
  | _ => cases h

theorem make_frames (r : Registry) (op : Opcode) {i : Instruction} (h : i.makes = true) :
    Frames (atop below) (step r op i) := by
  cases i with
  | tuple size => exact (popValues_frames op size).bind fun _ => push_frames op _ _
  | gather kind => exact (popMarked_frames op).bind fun _ => push_frames op _ _
  | gatherDict =>
    exact (popMarked_frames op).bind fun _ => (beside_frames _).bind fun _ => push_frames op _ _
  | stackGlobal =>
    apply (popValue_frames op).bind
    intro name
    apply (popValue_frames op).bind
    intro module_
    split
    · exact push_frames op 0 _
    · exact fail_frames op _
  | _ => cases h

theorem fill_frames (r : Registry) (op : Opcode) {i : Instruction} (h : i.fills = true) :
    Frames (atop below) (step r op i) := by
  cases i with
  | append => exact (popValue_frames op).bind fun _ => extend_frames op _ _
  | appends => exact (popMarked_frames op).bind fun _ => extend_frames op _ _
  | setItem =>
    exact (popValue_frames op).bind fun _ => (popValue_frames op).bind fun _ =>
      extend_frames op _ _
  | setItems =>
    exact (popMarked_frames op).bind fun _ => (beside_frames _).bind fun _ =>
      extend_frames op _ _
  | addItems => exact (popMarked_frames op).bind fun _ => extend_frames op _ _
  | _ => cases h

theorem invoke_frames (r : Registry) (op : Opcode) {i : Instruction} (h : i.calls = true) :
    Frames (atop below) (step r op i) := by
  cases i with
  | call =>
    exact (popValue_frames op).bind fun _ => (popValue_frames op).bind fun _ =>
      (beside_frames _).bind fun _ => call_frames r op _ _ _
  | callWithKeywords =>
    exact (popValue_frames op).bind fun _ => (popValue_frames op).bind fun _ =>
      (popValue_frames op).bind fun _ => (beside_frames _).bind fun _ => call_frames r op _ _ _
  | callMarked =>
    apply (popMarked_frames op).bind
    intro g
    split
    · exact fail_frames op _
    · exact call_frames r op _ _ _
  | callNamed name => exact (popMarked_frames op).bind fun _ => call_frames r op _ _ _
  | _ => cases h

theorem step_frames (r : Registry) (op : Opcode) (i : Instruction) :
    Frames (atop below) (step r op i) := by
  cases i with
  | nothing | stop | inspect | mark | pop | popMark | dup | get | put | memoize =>
    exact move_frames r op rfl
  | push v => exact push_frames op 0 v
  | tuple | gather | gatherDict | stackGlobal => exact make_frames r op rfl
  | append | appends | setItem | setItems | addItems => exact fill_frames r op rfl
  | call | callWithKeywords | callMarked | callNamed => exact invoke_frames r op rfl
  | build => exact (popValue_frames op).bind fun _ => buildTop_frames op _

/-- Only `STOP` asks for the whole stack. -/
theorem next_frames {r : Registry} {m t : FlatMachine}
    (h : (next r).start m = (.ok none, t)) :
    (next r).start (atop below m) = (.ok none, atop below t) := by
  obtain ⟨s, u, hget, h⟩ := start_bind_ok h
  cases hget
  obtain ⟨code, m₁, hcode, h⟩ := start_bind_ok h
  rw [next, start_bind, start_get]
  dsimp only
  rw [start_bind, beside_frames _ m code m₁ hcode]
  cases hop : Opcode.ofByte? code with
  | none =>
    simp only [hop] at h
    cases h
  | some op =>
    simp only [hop] at h ⊢
    obtain ⟨i, m₂, hi, h⟩ := start_bind_ok h
    have hread := @beside_frames _ below _ m₁ i m₂ hi
    have hposition : (atop below m).cursor.position = m.cursor.position := rfl
    rw [hposition, start_bind, hread]
    have hperform : Frames (atop below) (do step r op i; return (none : Option Value)) :=
      (step_frames r op i).bind fun _ => .pure none
    cases i with
    | stop =>
      obtain ⟨v, -, hv⟩ := start_map_ok h
      cases hv
    | _ => exact hperform m₂ _ t h

theorem after?_atop {r : Registry} {k : Nat} {m t : FlatMachine} (h : m.after? r k = some t) :
    (atop below m).after? r k = some (atop below t) := by
  induction k generalizing m with
  | zero =>
    cases h
    rfl
  | succ k ih =>
    rw [after?] at h ⊢
    rcases hnext : (next r).start m with ⟨e | _ | v, u⟩ <;> rw [hnext] at h
    · cases h
    · rw [next_frames hnext]
      exact ih h
    · cases h

end FlatMachine

namespace Machine
open Process

variable {r : Registry} {m t : Machine} {k : Nat}

theorem splitMarker?_joined (segment s : List Slot) (suspended : List (List Slot)) :
    Entry.splitMarker? (segment.map .slot ++ joined (s :: suspended)) =
      some (segment, s.map .slot ++ joined suspended) := by
  rw [joined, List.flatMap_cons, List.cons_append, Entry.splitMarker?_segment]
  rfl

theorem splitMarker?_joined_nil (segment : List Slot) :
    Entry.splitMarker? (segment.map .slot ++ joined []) = none := by
  rw [joined, List.flatMap_nil, List.append_nil, Entry.splitMarker?_slots]

theorem joined_injective {segment segment' : List Slot} {suspended suspended' : List (List Slot)}
    (h : segment.map Entry.slot ++ joined suspended =
      segment'.map Entry.slot ++ joined suspended') :
    segment = segment' ∧ suspended = suspended' := by
  induction suspended generalizing segment segment' suspended' with
  | nil =>
    cases suspended' with
    | nil =>
      rw [List.append_left_inj, List.map_inj_right fun _ _ => Entry.slot.inj] at h
      exact ⟨h, rfl⟩
    | cons s suspended' =>
      have hsplit := congrArg Entry.splitMarker? h
      rw [splitMarker?_joined_nil, splitMarker?_joined] at hsplit
      cases hsplit
  | cons s suspended ih =>
    cases suspended' with
    | nil =>
      have hsplit := congrArg Entry.splitMarker? h
      rw [splitMarker?_joined_nil, splitMarker?_joined] at hsplit
      cases hsplit
    | cons s' suspended' =>
      have hsplit := congrArg Entry.splitMarker? h
      rw [splitMarker?_joined, splitMarker?_joined] at hsplit
      obtain ⟨rfl, hrest⟩ := Prod.mk.inj (Option.some.inj hsplit)
      obtain ⟨rfl, rfl⟩ := ih hrest
      exact ⟨rfl, rfl⟩

theorem flatten_injective {m m' : Machine} (h : m.flatten = m'.flatten) : m = m' := by
  obtain ⟨c, stack, suspended, memo, limit, allowance, reports⟩ := m
  obtain ⟨c', stack', suspended', memo', limit', allowance', reports'⟩ := m'
  obtain ⟨hstack, rfl, rfl, rfl, rfl, rfl⟩ := FlatMachine.mk.inj h
  obtain ⟨rfl, rfl⟩ := joined_injective hstack
  rfl

/-- What code does on an empty stack, it does on any stack, if it leaves no mark open. -/
theorem after?_onto (h : (onto [] [] m).after? r k = some t) (ht : t.suspended = [])
    (stack : List Slot) (suspended : List (List Slot)) :
    (onto stack suspended m).after? r k = some (onto (t.stack ++ stack) suspended t) := by
  let below := stack.map Entry.slot ++ joined suspended
  have hbare : (onto [] [] m).flatten.after? r k = some t.flatten := by
    rw [flatten_after?, h]
    rfl
  have hstart : FlatMachine.atop below (onto [] [] m).flatten =
      (onto stack suspended m).flatten := rfl
  have hend : FlatMachine.atop below t.flatten = (onto (t.stack ++ stack) suspended t).flatten := by
    simp only [FlatMachine.atop, flatten, onto, ht, below, List.map_append, List.append_assoc]
    rfl
  have hframed : (FlatMachine.atop below (onto [] [] m).flatten).after? r k =
      some (FlatMachine.atop below t.flatten) := FlatMachine.after?_atop hbare
  rw [hstart, hend, flatten_after?] at hframed
  obtain ⟨u, hu, hflat⟩ := Option.map_eq_some_iff.mp hframed
  rw [hu, flatten_injective hflat]

/-- Instructions carried out once are carried out by every machine in the same place. -/
theorem after?_carried (h : m.after? r k = some t) :
    ∃ used spent, Paid used spent m t ∧ ∀ m', Overlaid .same m m' → Affords used spent m' →
      ∃ t', m'.after? r k = some t' ∧ Overlaid .same t t' ∧ Paid used spent m' t' := by
  induction k generalizing m with
  | zero =>
    cases h
    exact ⟨[], 0, .nothing rfl rfl rfl, fun m' hm _ => ⟨m', rfl, hm, .nothing rfl rfl rfl⟩⟩
  | succ k ih =>
    obtain ⟨u, hnext, h⟩ := after?_succ_iff.mp h
    obtain ⟨used, spent, hpaid, hthere⟩ :=
      next_carried (o := .same) (fun _ _ _ => Overlay.same_counts) hnext
    obtain ⟨later, cost, hpaid', hthere'⟩ := ih h
    refine ⟨used ++ later, spent + cost, hpaid.trans hpaid', fun m' hm haff => ?_⟩
    obtain ⟨u', hstart, hu, hpaid₁⟩ := hthere m' hm haff.first
    obtain ⟨t', hafter, ht, hpaid₂⟩ := hthere' u' hu (haff.rest hpaid₁)
    exact ⟨t', after?_succ_iff.mpr ⟨u', hstart, hafter⟩, ht, hpaid₁.trans hpaid₂⟩

/-- What code does at the start of a stream, it does wherever it stands. -/
theorem after?_facing {data : Bytes}
    (h : (m.facing 0 data).after? r k = some (t.facing data.length [])) (p : Nat) (rest : Bytes) :
    (m.facing p (data ++ rest)).after? r k = some (t.facing (p + data.length) rest) := by
  obtain ⟨used, spent, hpaid, hthere⟩ := after?_carried h
  -- the run is carried elsewhere, where it takes the same bytes and pays for the same copies
  obtain rfl : data = used := by
    have hbytes := hpaid.bytes.rest
    rwa [facing, facing, List.append_nil] at hbytes
  have hcopies : m.allowance = spent + t.allowance := hpaid.copies
  have hlimit : t.copyLimit = m.copyLimit := hpaid.limit
  obtain ⟨⟨c, stack, suspended, memo, limit, allowance, reports⟩, hafter, ht, hpaid'⟩ :=
    hthere (m.facing p (data ++ rest)) ⟨rfl, rfl, rfl, rfl⟩
      ⟨List.prefix_append _ _, Nat.le.intro hcopies.symm⟩
  have hcursor : c = ⟨p + data.length, rest⟩ := by
    obtain ⟨q, ahead⟩ := c
    obtain ⟨hrest, hposition⟩ := hpaid'.bytes
    rw [Cursor.mk.injEq]
    exact ⟨hposition, (List.append_cancel_left hrest).symm⟩
  have hcopies' : m.allowance = spent + allowance := hpaid'.copies
  have hallowance : allowance = t.allowance := by omega
  have hlimit' : limit = t.copyLimit := hpaid'.limit.trans hlimit.symm
  obtain ⟨hstack, hsuspended, hmemo, hreports⟩ := ht
  cases hstack
  cases hsuspended
  cases hmemo
  cases hreports
  rw [hafter, hcursor, hallowance, hlimit']
  rfl

/-- Code that, run by itself, puts slots on an empty stack and takes the memo, the copies and
the reports of a machine to those of another. -/
def Supplies (r : Registry) (data : Bytes) (slots : List Slot) (m m' : Machine) : Prop :=
  ∃ k, ((onto [] [] m).facing 0 data).after? r k =
    some ((onto slots.reverse [] m').facing data.length [])

/-- It does so on every stack and at every place of a stream. -/
theorem Supplies.anywhere {data : Bytes} {slots : List Slot} {m m' : Machine}
    (h : Supplies r data slots m m') (stack : List Slot) (suspended : List (List Slot)) (p : Nat)
    (rest : Bytes) :
    ∃ k, ((onto stack suspended m).facing p (data ++ rest)).after? r k =
      some ((onto (slots.reverse ++ stack) suspended m').facing (p + data.length) rest) := by
  obtain ⟨k, hk⟩ := h
  have hthere := after?_facing hk p rest
  exact ⟨k, after?_onto (m := m.facing p (data ++ rest)) hthere rfl stack suspended⟩

end Machine

end PickledModel
