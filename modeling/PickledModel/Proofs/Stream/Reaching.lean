import PickledModel.Proofs.Stream.Reachability
import PickledModel.Proofs.Stream.RoundTrip

/-! Streams that reach given machines. The stream of a plain value leads from a
reachable machine to one with the value on its stack, and a global called by name
puts its result there. -/

set_option autoImplicit false

namespace PickledModel.Machine
open Process

variable {r : Registry}

def midway (data : Bytes) (offset : Nat) (stack : List Slot) (suspended : List (List Slot))
    (reports : List String) : Machine :=
  { ofBytes data with cursor := ⟨offset, data.drop offset⟩, stack, suspended, reports }

theorem Reachable.advances {data bytes : Bytes} {m m' : Machine} (hm : Reachable data m)
    (h : Advances r bytes m m') : Reachable data m' := by
  obtain ⟨k, -, hrun⟩ := h
  have hsteps := hm.run r k
  have hend : Machine.run r k m = Machine.run r 0 m' := hrun 0
  rwa [hend] at hsteps

/-- A global called with the values of a segment puts its result in their place. -/
theorem start_callNamed {op : Opcode} {name : String} {vs : List Value} {o : Call.Outcome}
    {stack : List Slot} {suspended : List (List Slot)} (m : Machine) (hp : ∀ v ∈ vs, v.Plain)
    (hs : m.stack = (vs.map holding).reverse) (hm : m.suspended = stack :: suspended)
    (ho : Call.run r name vs = .ok o)
    (hn : levelsOver (Value.innerNesting vs) o.value ≤ maxNesting) :
    (step r op (.callNamed name)).start m = (.ok (), { m with
      stack := .owned ⟨o.value, levelsOver (Value.innerNesting vs) o.value⟩ :: stack
      suspended
      reports := m.reports ++ o.unresolved.toList }) := by
  rw [step, start_bind, start_popMarked m hp hs hm]
  simp only [call, start_bind, ho, start_ofExcept, start_modify]
  rw [start_push _ hn]

theorem after?_callNamed {op : Opcode} {name : String} {c : Cursor} (vs : List Value)
    {o : Call.Outcome} {stack : List Slot} {suspended : List (List Slot)} {m : Machine}
    (hfetch : m.cursor.fetch? = some (op, .callNamed name, c)) (hp : ∀ v ∈ vs, v.Plain)
    (hs : m.stack = (vs.map holding).reverse) (hm : m.suspended = stack :: suspended)
    (ho : Call.run r name vs = .ok o)
    (hn : levelsOver (Value.innerNesting vs) o.value ≤ maxNesting) (k : Nat) :
    m.after? r (k + 1) = Machine.after? r k { m with
      cursor := c
      stack := .owned ⟨o.value, levelsOver (Value.innerNesting vs) o.value⟩ :: stack
      suspended
      reports := m.reports ++ o.unresolved.toList } := by
  rw [after?, start_next_of_step hfetch (by simp) (start_callNamed _ hp hs hm ho hn)]

/-- An object takes the state that lies on it. -/
theorem start_build {op : Opcode} {name : String} {body built : Body Value} {state : Value}
    {inner depth : Nat} {stack : List Slot} {c : Cursor} (m : Machine)
    (hs : m.stack = .owned ⟨state, inner⟩ :: .owned ⟨.object name body, depth⟩ :: stack)
    (hstate : state.normalize = state) (hn : inner + 1 ≤ maxNesting)
    (hrestore : (Body.restore name state).start (body, m.cursor) = (.ok (), built, c)) :
    (step r op .build).start m = (.ok (), { m with
      cursor := c
      stack := .owned ⟨.object name built, max depth (inner + 1)⟩ :: stack }) := by
  have hpop : (popValue op).start m = (.ok ⟨state, inner⟩,
      { m with stack := .owned ⟨.object name body, depth⟩ :: stack }) := by
    rw [popValue, start_bind, start_popSlot op _ _ _ hs]
    dsimp only
    rw [start_resolve_owned, hstate]
  rw [step, start_bind, hpop]
  dsimp only
  rw [start_buildTop hn rfl rfl hrestore]
  rfl

theorem after?_build {op : Opcode} {name : String} {c d : Cursor} {body built : Body Value}
    {state : Value} {inner depth : Nat} {stack : List Slot} {m : Machine}
    (hfetch : m.cursor.fetch? = some (op, .build, c))
    (hs : m.stack = .owned ⟨state, inner⟩ :: .owned ⟨.object name body, depth⟩ :: stack)
    (hstate : state.normalize = state) (hn : inner + 1 ≤ maxNesting)
    (hrestore : (Body.restore name state).start (body, c) = (.ok (), built, d)) (k : Nat) :
    m.after? r (k + 1) = Machine.after? r k { m with
      cursor := d
      stack := .owned ⟨.object name built, max depth (inner + 1)⟩ :: stack } := by
  rw [after?, start_next_of_step hfetch (by simp) (start_build _ hs hstate hn hrestore)]

def nameLines (module_ name : List Char) : Bytes :=
  latin1Codes module_ ++ 0x0a :: (latin1Codes name ++ [0x0a])

def callStream (module_ name : List Char) (vs : List Value) : Bytes :=
  (Value.tuple vs).opening ++
    (vs.flatMap Value.encode ++ (Opcode.inst.code :: nameLines module_ name ++ []))

/-- The result of a call with plain arguments is put on the stack by its stream. -/
theorem callStream_advances {module_ name : List Char} {vs : List Value} {o : Call.Outcome}
    (hm : ∀ c ∈ module_, c.toNat < 256 ∧ c ≠ '\n') (hn : ∀ c ∈ name, c.toNat < 256 ∧ c ≠ '\n')
    (hp : ∀ v ∈ vs, v.Plain) (hfit : ∀ v ∈ vs, v.nesting < maxNesting)
    (ho : Call.run r (String.ofList (module_ ++ '.' :: name)) vs = .ok o) (rest : Bytes) :
    ∃ m p depth, Advances r (callStream module_ name vs)
        (ofBytes (callStream module_ name vs ++ rest)) m ∧
      m.cursor = ⟨p, rest⟩ ∧ m.stack = [.owned ⟨o.value, depth⟩] ∧ m.suspended = [] := by
  let operands := nameLines module_ name
  let ahead := Opcode.inst.code :: operands ++ rest
  let start := ofBytes (callStream module_ name vs ++ rest)
  have hinner : Value.innerNesting vs ≤ maxNesting - 1 := by
    apply foldl_max_le_iff.mpr
    refine ⟨Nat.zero_le _, fun n hn => ?_⟩
    obtain ⟨v, hv, rfl⟩ := List.mem_map.mp hn
    exact Nat.le_sub_one_of_lt (hfit v hv)
  have hlevels : levelsOver (Value.innerNesting vs) o.value ≤ maxNesting := by
    unfold levelsOver
    rw [maxNesting] at hinner ⊢
    split <;> omega
  -- a mark as for a tuple, the arguments, and the call in the place of the end of the tuple
  have hopening := opening_advances (r := r) (.tuple hp) rfl start 0
    (vs.flatMap Value.encode ++ ahead)
  have hargs := (Pushes.flatMap fun v hv => encode_pushes (r := r) (hp v hv))
    (start.gathering (.tuple vs) []) (0 + (Value.tuple vs).opening.length) ahead
  have hread : ∀ p, (Fetch.instruction p .inst).start ⟨p + 1, operands ++ rest⟩ =
      (.ok (.callNamed (String.ofList (module_ ++ '.' :: name))),
        ⟨p + 1 + operands.length, rest⟩) := by
    intro p
    have hname := Fetch.start_globalName (p + 1) rest hm hn
    rw [Fetch.instruction, start_map]
    simp only [operands, nameLines, List.append_assoc, List.cons_append, List.nil_append]
    rw [hname]
    rfl
  have hcalled := @start_callNamed r .inst _ vs o [] []
    ({ start.gathering (.tuple vs) [] with
      stack := (vs.map holding).reverse ++ (start.gathering (.tuple vs) []).stack }.facing
        (0 + (Value.tuple vs).opening.length + (vs.flatMap Value.encode).length + 1 + operands.length)
        rest) hp (List.append_nil _) rfl ho hlevels
  have hadvances := (hopening.trans (hargs.1 fun v hv => Nat.le_of_lt (hfit v hv))).trans
    (Advances.step operands (hread _) (by simp) hcalled)
  have hstart : start = start.facing 0
      ((Value.tuple vs).opening ++ (vs.flatMap Value.encode ++ ahead)) := by
    simp only [start, ahead, callStream, ofBytes, Cursor.ofBytes, facing, List.append_assoc,
      List.cons_append, List.nil_append, operands]
  have hbytes : callStream module_ name vs = (Value.tuple vs).opening ++
      vs.flatMap Value.encode ++ Opcode.inst.code :: operands := by
    rw [callStream, List.append_nil, List.append_assoc]
  rw [← hstart, ← hbytes] at hadvances
  exact ⟨_, _, _, hadvances, rfl, rfl, rfl⟩

theorem callStream_reaches {module_ name : List Char} {vs : List Value} {o : Call.Outcome}
    (hm : ∀ c ∈ module_, c.toNat < 256 ∧ c ≠ '\n') (hn : ∀ c ∈ name, c.toNat < 256 ∧ c ≠ '\n')
    (hp : ∀ v ∈ vs, v.Plain) (hfit : ∀ v ∈ vs, v.nesting < maxNesting)
    (ho : Call.run r (String.ofList (module_ ++ '.' :: name)) vs = .ok o) :
    ∃ m h, Reachable (callStream module_ name vs) m ∧ m.stack = [.owned h] ∧
      h.value = o.value := by
  obtain ⟨m, p, depth, hadvances, -, hstack, -⟩ := callStream_advances hm hn hp hfit ho []
  rw [List.append_nil] at hadvances
  exact ⟨_, _, Reachable.ofBytes.advances hadvances, hstack, rfl⟩

/-- With a stop after it, the stream of a call is loaded as the result of the call. -/
theorem load_callStream {module_ name : List Char} {vs : List Value} {o : Call.Outcome}
    (hm : ∀ c ∈ module_, c.toNat < 256 ∧ c ≠ '\n') (hn : ∀ c ∈ name, c.toNat < 256 ∧ c ≠ '\n')
    (hp : ∀ v ∈ vs, v.Plain) (hfit : ∀ v ∈ vs, v.nesting < maxNesting)
    (ho : Call.run r (String.ofList (module_ ++ '.' :: name)) vs = .ok o)
    (hvalue : o.value.normalize = o.value) :
    ((ofBytes (callStream module_ name vs ++ [Opcode.stop.code])).load r).1 = .ok o.value := by
  obtain ⟨m, p, depth, hadvances, hcursor, hstack, hsuspended⟩ :=
    callStream_advances hm hn hp hfit ho [Opcode.stop.code]
  rw [hadvances.load hcursor hvalue hstack hsuspended]

def buildStream (module_ name : List Char) (vs : List Value) (state : Value) : Bytes :=
  callStream module_ name vs ++ (state.encode ++ [Opcode.build.code])

/-- With a stop after it, the stream is loaded as the object with the state restored, if that
reads no more of the stream. -/
theorem load_buildStream {module_ name : List Char} {vs : List Value} {typeName : String}
    {body built : Body Value} {state : Value} {unresolved : Option String}
    (hm : ∀ c ∈ module_, c.toNat < 256 ∧ c ≠ '\n') (hn : ∀ c ∈ name, c.toNat < 256 ∧ c ≠ '\n')
    (hp : ∀ v ∈ vs, v.Plain) (hfit : ∀ v ∈ vs, v.nesting < maxNesting)
    (ho : Call.run r (String.ofList (module_ ++ '.' :: name)) vs =
      .ok ⟨.object typeName body, unresolved⟩)
    (hstate : state.Plain) (hnesting : state.nesting < maxNesting)
    (hrestore : ∀ c, (Body.restore typeName state).start (body, c) = (.ok (), built, c)) :
    ((ofBytes (buildStream module_ name vs state ++ [Opcode.stop.code])).load r).1 =
      .ok (.object typeName built) := by
  let rest : Bytes := [Opcode.build.code] ++ [Opcode.stop.code]
  obtain ⟨m, p, depth, hcalled, hcursor, hstack, hsuspended⟩ :=
    callStream_advances hm hn hp hfit ho (state.encode ++ rest)
  have hfacing : m = m.facing p (state.encode ++ rest) := by rw [facing, ← hcursor]
  have hpushed := (encode_pushes (r := r) hstate m p rest).1
    (List.forall_mem_singleton.mpr (Nat.le_of_lt hnesting))
  rw [← hfacing] at hpushed
  let top : Slot := .owned ⟨.object typeName built, max depth (state.nesting + 1)⟩
  have hbuild : ∀ q, (step r .build .build).start ({ m with
      stack := ([state].map holding).reverse ++ m.stack }.facing q [Opcode.stop.code]) =
      (.ok (), { m with stack := [top] }.facing q [Opcode.stop.code]) := by
    intro q
    rw [hstack]
    exact start_build _ rfl hstate.normalize hnesting (hrestore _)
  have hbuilt := (hcalled.trans hpushed).trans
    (Advances.operand (fun _ => rfl) (by simp) (hbuild (p + state.encode.length + 1)))
  have hbytes : buildStream module_ name vs state =
      callStream module_ name vs ++ state.encode ++ [Opcode.build.code] := by
    rw [buildStream, List.append_assoc]
  have hwhole : callStream module_ name vs ++ (state.encode ++ rest) =
      buildStream module_ name vs state ++ [Opcode.stop.code] := by
    rw [hbytes, List.append_assoc, List.append_assoc]
  rw [hwhole, ← hbytes] at hbuilt
  rw [hbuilt.load rfl rfl rfl hsuspended]

end PickledModel.Machine
