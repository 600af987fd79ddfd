import PickledModel.Proofs.Stream.Additions
import PickledModel.Proofs.Stream.Encoding
import PickledModel.Proofs.Value.Nesting
import PickledModel.Stream.Load

/-! Loading undoes writing. The stream of a plain value, met in any state of the
machine, pushes that value with the levels it nests and changes nothing else,
or breaks off as malformed if these are too many. -/

set_option autoImplicit false

namespace PickledModel

theorem Value.Plain.normalize {v : Value} (hv : v.Plain) : v.normalize = v := by
  cases hv with
  | leaf _ => rfl
  | list _ => rfl
  | tuple _ => rfl
  | set _ h => rw [Value.normalize, Value.distinctItems_of_pairwise h]
  | frozenSet _ h => rw [Value.normalize, Value.distinctItems_of_pairwise h]
  | dict _ _ h => rw [Value.normalize, Value.distinctEntries_of_pairwise h]

theorem Value.Plain.children {v : Value} (hv : v.Plain) : ∀ c ∈ v.children, c.Plain := by
  cases hv with
  | leaf _ =>
    intro c hc
    cases hc
  | list h => exact h
  | tuple h => exact h
  | set h _ => exact h
  | frozenSet h _ => exact h
  | dict hk hv _ => exact forall_mem_entries fun e he => ⟨hk e he, hv e he⟩

def Value.innerNesting (vs : List Value) : Nat := (vs.map Value.nesting).foldl max 0

theorem Value.nesting_of_nests {v : Value} (h : v.nests) :
    v.nesting = Value.innerNesting v.children + 1 := by
  rw [Value.nesting_eq, if_pos h]
  rfl

namespace Machine
open Process

def facing (m : Machine) (p : Nat) (rest : Bytes) : Machine := { m with cursor := ⟨p, rest⟩ }

def holding (v : Value) : Slot := .owned ⟨v, v.nesting⟩

def Advances (r : Registry) (data : Bytes) (m m' : Machine) : Prop :=
  ∃ k, k ≤ data.length ∧ ∀ n, run r (k + n) m = run r n m'

def Breaks (r : Registry) (data : Bytes) (m : Machine) : Prop :=
  ∃ k f, k ≤ data.length ∧ ∀ n, (run r (k + n) m).1 = .error (.malformed f)

variable {r : Registry}

theorem Advances.refl (m : Machine) : Advances r [] m m :=
  ⟨0, Nat.le_refl 0, fun n => by rw [Nat.zero_add]⟩

theorem Advances.trans {data data' : Bytes} {m m' m'' : Machine} (h : Advances r data m m')
    (h' : Advances r data' m' m'') : Advances r (data ++ data') m m'' := by
  obtain ⟨k, hk, hrun⟩ := h
  obtain ⟨k', hk', hrun'⟩ := h'
  refine ⟨k + k', ?_, ?_⟩
  · rw [List.length_append]
    omega
  · intro n
    rw [Nat.add_assoc, hrun, hrun']

theorem Advances.breaks {data data' : Bytes} {m m' : Machine} (h : Advances r data m m')
    (h' : Breaks r data' m') : Breaks r (data ++ data') m := by
  obtain ⟨k, hk, hrun⟩ := h
  obtain ⟨k', f, hk', hrun'⟩ := h'
  refine ⟨k + k', f, ?_, ?_⟩
  · rw [List.length_append]
    omega
  · intro n
    rw [Nat.add_assoc, hrun, hrun']

theorem Breaks.append {data : Bytes} {m : Machine} (h : Breaks r data m) (data' : Bytes) :
    Breaks r (data ++ data') m := by
  obtain ⟨k, f, hk, hrun⟩ := h
  refine ⟨k, f, ?_, hrun⟩
  rw [List.length_append]
  omega

theorem start_u8 (b : UInt8) (p : Nat) (rest : Bytes) :
    (Process.read Cursor.u8).start ⟨p, b :: rest⟩ = (.ok b, ⟨p + 1, rest⟩) := by
  have htake := Cursor.take_append p [b] rest
  apply start_read_ok
  simp only [List.length_singleton, List.singleton_append] at htake
  simp only [Cursor.u8, Cursor.word, Functor.map, StateT.map, htake, bind, Except.bind, pure,
    Except.pure, Word.value, Nat.mul_zero, Nat.add_zero, UInt8.ofNat_toNat]

theorem start_next {op : Opcode} {i : Instruction} {p q : Nat} {ahead rest : Bytes}
    (m : Machine) (hi : (Fetch.instruction p op).start ⟨p + 1, ahead⟩ = (.ok i, ⟨q, rest⟩))
    (hs : i ≠ .stop) :
    (next r).start (m.facing p (op.code :: ahead)) =
      match (step r op i).start (m.facing q rest) with
      | (.ok _, m') => (.ok none, m')
      | (.error e, m') => (.error e, m') := by
  rcases hstep : (step r op i).start (m.facing q rest) with ⟨e | u, m'⟩
  all_goals
    rw [facing] at hstep
    rw [next, start_bind, start_get]
    simp only [start_bind, onCursor, start_on, facing, start_u8, Opcode.ofByte?_code, hi]
    cases i with
    | stop => exact absurd rfl hs
    | _ => simp only [hstep, start_pure]

theorem Advances.step (operands : Bytes) {op : Opcode} {i : Instruction} {p q : Nat} {rest : Bytes}
    {m m' : Machine}
    (hi : (Fetch.instruction p op).start ⟨p + 1, operands ++ rest⟩ = (.ok i, ⟨q, rest⟩))
    (hs : i ≠ .stop) (h : (step r op i).start (m.facing q rest) = (.ok (), m')) :
    Advances r (op.code :: operands) (m.facing p (op.code :: operands ++ rest)) m' := by
  refine ⟨1, by simp, ?_⟩
  intro n
  have hnext := start_next (r := r) m hi hs
  rw [h] at hnext
  rw [Nat.add_comm, run, List.cons_append, hnext]

theorem Breaks.step (operands : Bytes) {op : Opcode} {i : Instruction} {p q : Nat} {rest : Bytes}
    {m m' : Machine} {f : StreamFault}
    (hi : (Fetch.instruction p op).start ⟨p + 1, operands ++ rest⟩ = (.ok i, ⟨q, rest⟩))
    (hs : i ≠ .stop)
    (h : (step r op i).start (m.facing q rest) = (.error (.malformed f), m')) :
    Breaks r (op.code :: operands) (m.facing p (op.code :: operands ++ rest)) := by
  refine ⟨1, f, by simp, ?_⟩
  intro n
  have hnext := start_next (r := r) m hi hs
  rw [h] at hnext
  rw [Nat.add_comm, run, List.cons_append, hnext]

def Pushes (r : Registry) (data : Bytes) (vs : List Value) : Prop :=
  ∀ (m : Machine) (p : Nat) (rest : Bytes),
    ((∀ v ∈ vs, v.nesting ≤ maxNesting) →
      Advances r data (m.facing p (data ++ rest))
        ({ m with stack := (vs.map holding).reverse ++ m.stack }.facing (p + data.length) rest)) ∧
    ((∃ v ∈ vs, maxNesting < v.nesting) → Breaks r data (m.facing p (data ++ rest)))

theorem Pushes.nil : Pushes r [] [] := by
  intro m p rest
  constructor
  · intro _
    exact Advances.refl _
  · rintro ⟨v, hv, -⟩
    cases hv

theorem Pushes.append {data data' : Bytes} {vs vs' : List Value} (h : Pushes r data vs)
    (h' : Pushes r data' vs') : Pushes r (data ++ data') (vs ++ vs') := by
  intro m p rest
  rw [List.append_assoc]
  obtain ⟨hfit, hdeep⟩ := h m p (data' ++ rest)
  obtain ⟨hfit', hdeep'⟩ :=
    h' { m with stack := (vs.map holding).reverse ++ m.stack } (p + data.length) rest
  constructor
  · intro hall
    have hboth := (hfit fun v hv => hall v (List.mem_append_left _ hv)).trans
      (hfit' fun v hv => hall v (List.mem_append_right _ hv))
    simpa [Nat.add_assoc] using hboth
  · rintro ⟨v, hv, hdv⟩
    by_cases hall : ∀ v ∈ vs, v.nesting ≤ maxNesting
    · rcases List.mem_append.mp hv with hv | hv
      · exact absurd (hall v hv) (Nat.not_le.mpr hdv)
      · exact (hfit hall).breaks (hdeep' ⟨v, hv, hdv⟩)
    · have hfirst : ∃ v ∈ vs, maxNesting < v.nesting := by
        simpa using hall
      exact (hdeep hfirst).append data'

theorem Pushes.flatMap {vs : List Value} (h : ∀ v ∈ vs, Pushes r v.encode [v]) :
    Pushes r (vs.flatMap Value.encode) vs := by
  induction vs with
  | nil => exact Pushes.nil
  | cons v vs ih =>
    rw [List.forall_mem_cons] at h
    exact h.1.append (ih h.2)

theorem Pushes.leaf {l : Leaf} (hl : l.Plain) : Pushes r l.encode [.leaf l] := by
  intro m p rest
  have hn : (Value.leaf l).nesting = 0 := Value.nesting_leaf l
  obtain ⟨op, operands, hencode, hi⟩ := Fetch.start_leaf hl p (p + 1) rest
  rw [hencode]
  constructor
  · intro _
    have hend : p + (op.code :: operands).length = p + 1 + operands.length := by
      rw [List.length_cons]
      omega
    apply Advances.step _ hi (by simp)
    rw [Machine.step, start_push _ (Nat.zero_le _), hend]
    simp only [facing, holding, hn, List.map_cons, List.map_nil, List.reverse_singleton,
      List.singleton_append]
    rfl
  · rintro ⟨v, hv, hdeep⟩
    rw [List.mem_singleton.mp hv, hn] at hdeep
    cases hdeep

theorem start_resolveAll (op : Opcode) (vs : List Value) (m : Machine) (hp : ∀ v ∈ vs, v.Plain) :
    (resolveAll op (vs.map holding)).start m = (.ok ⟨vs, Value.innerNesting vs⟩, m) := by
  have hmap : ((vs.map holding).mapM (resolve op)).start m =
      (.ok (vs.map fun v => ⟨v, v.nesting⟩), m) := by
    induction vs with
    | nil => rfl
    | cons v vs ih =>
      rw [List.forall_mem_cons] at hp
      rw [List.map_cons, List.mapM_cons, start_bind, holding, start_resolve_owned]
      simp only [hp.1.normalize, start_bind, ih hp.2, start_pure, List.map_cons]
  rw [resolveAll, start_bind, hmap]
  simp only [start_pure, Gathered.ofHeld, List.map_map, Function.comp_def, List.map_id',
    Value.innerNesting]

theorem start_popMarked {op : Opcode} {vs : List Value} {stack : List Slot}
    {suspended : List (List Slot)} (m : Machine) (hp : ∀ v ∈ vs, v.Plain)
    (hs : m.stack = (vs.map holding).reverse) (hm : m.suspended = stack :: suspended) :
    (popMarked op).start m =
      (.ok ⟨vs, Value.innerNesting vs⟩, { m with stack, suspended }) := by
  rw [popMarked, start_bind, start_popMark op stack suspended m hm, hs, List.reverse_reverse]
  exact start_resolveAll op vs _ hp

theorem start_target_deep {op : Opcode} {n : Nat} (m : Machine) (h : maxNesting < n + 1) :
    (target op n).start m = (.error (.malformed (.cause .tooDeep op m.cursor.position)), m) := by
  rw [target, start_bind, deepenTop, start_bind, start_checkDepth, if_pos h]

theorem start_target_owned {op : Opcode} {n d : Nat} {v : Value} {stack : List Slot} (m : Machine)
    (h : n + 1 ≤ maxNesting) (hs : m.stack = .owned ⟨v, d⟩ :: stack) :
    (target op n).start m = (.ok v, { m with stack := .owned ⟨v, max d (n + 1)⟩ :: stack }) := by
  rw [target, start_bind, deepenTop, start_bind, start_checkDepth, if_neg (Nat.not_lt.mpr h)]
  simp only [modifyTop, start_modify, hs, start_bind, start_get, start_pure]

def vessel : Value → List Slot
  | .list _ => [.owned ⟨.list [], 1⟩]
  | .set _ => [.owned ⟨.set [], 1⟩]
  | .dict _ => [.owned ⟨.dict [], 1⟩]
  | _ => []

def gathering (v : Value) (vs : List Value) (m : Machine) : Machine :=
  { m with stack := (vs.map holding).reverse, suspended := (vessel v ++ m.stack) :: m.suspended }

theorem Advances.operand {op : Opcode} {i : Instruction} {p : Nat} {rest : Bytes} {m m' : Machine}
    (hi : ∀ c, (Fetch.instruction p op).start c = (.ok i, c)) (hs : i ≠ .stop)
    (h : (Machine.step r op i).start (m.facing (p + 1) rest) = (.ok (), m')) :
    Advances r [op.code] (m.facing p ([op.code] ++ rest)) m' :=
  Advances.step [] (hi _) hs h

theorem Breaks.operand {op : Opcode} {i : Instruction} {p : Nat} {rest : Bytes} {m m' : Machine}
    {f : StreamFault} (hi : ∀ c, (Fetch.instruction p op).start c = (.ok i, c)) (hs : i ≠ .stop)
    (h : (Machine.step r op i).start (m.facing (p + 1) rest) = (.error (.malformed f), m')) :
    Breaks r [op.code] (m.facing p ([op.code] ++ rest)) :=
  Breaks.step [] (hi _) hs h

theorem opening_advances {v : Value} (hv : v.Plain) (hn : v.nests) (m : Machine) (p : Nat)
    (rest : Bytes) :
    Advances r v.opening (m.facing p (v.opening ++ rest))
      ((m.gathering v []).facing (p + v.opening.length) rest) := by
  have hmark : ∀ (m : Machine) (p : Nat), Advances r [Opcode.mark.code]
      (m.facing p ([Opcode.mark.code] ++ rest))
      ({ m with stack := [], suspended := m.stack :: m.suspended }.facing (p + 1) rest) := by
    intro m p
    exact Advances.operand (fun _ => rfl) (by simp) rfl
  have hempty : ∀ (op : Opcode) (e : Value), (∀ c, (Fetch.instruction p op).start c = (.ok (.push e), c)) →
      e.nests → Advances r [op.code] (m.facing p ([op.code] ++ (Opcode.mark.code :: rest)))
        ({ m with stack := .owned ⟨e, 1⟩ :: m.stack }.facing (p + 1) (Opcode.mark.code :: rest)) := by
    intro op e hi he
    apply Advances.operand hi (by simp)
    have hlevels : levelsOver 0 e = 1 := by rw [levelsOver, if_pos he]
    rw [Machine.step, start_push _ (by rw [hlevels]; decide), hlevels]
    rfl
  cases hv with
  | leaf _ => cases hn
  | list _ => exact (hempty .emptyList (.list []) (fun _ => rfl) rfl).trans (hmark _ _)
  | set _ _ => exact (hempty .emptySet (.set []) (fun _ => rfl) rfl).trans (hmark _ _)
  | dict _ _ _ => exact (hempty .emptyDict (.dict []) (fun _ => rfl) rfl).trans (hmark _ _)
  | tuple _ => exact hmark m p
  | frozenSet _ _ => exact hmark m p

def Closes (r : Registry) (op : Opcode) (i : Instruction) (v : Value) : Prop :=
  ∀ m : Machine,
    (v.nesting ≤ maxNesting → (Machine.step r op i).start (m.gathering v v.children) =
      (.ok (), { m with stack := holding v :: m.stack })) ∧
    (maxNesting < v.nesting → ∃ f m', (Machine.step r op i).start (m.gathering v v.children) =
      (.error (.malformed f), m'))

theorem closes_gather {kind : SequenceKind} {op : Opcode} {items : List Value}
    (hv : (Value.sequence kind items).Plain)
    (hvessel : vessel (.sequence kind items) = [])
    (hitems : (if kind = .frozenSet then Value.distinctItems items else items) = items) :
    Closes r op (.gather kind) (.sequence kind items) := by
  intro m
  have hpop : (popMarked op).start (m.gathering (.sequence kind items) items) =
      (.ok ⟨items, Value.innerNesting items⟩, m) := by
    rw [start_popMarked _ hv.children rfl rfl, hvessel]
    rfl
  have hn : (Value.sequence kind items).nesting = Value.innerNesting items + 1 :=
    Value.nesting_of_nests rfl
  have hlevels : levelsOver (Value.innerNesting items) (.sequence kind items) =
      (Value.sequence kind items).nesting := hn.symm
  simp only [Machine.step, start_bind, Value.children, hpop, hitems]
  constructor
  · intro hfit
    rw [start_push _ (by rw [hlevels]; exact hfit), hlevels]
    rfl
  · intro hdeep
    rw [push, start_bind, start_checkDepth, hlevels, if_pos hdeep]
    exact ⟨_, _, rfl⟩

theorem start_extend_deep {op : Opcode} {n : Nat} {a : Addition Value} (m : Machine)
    (h : maxNesting < n + 1) : (extend op n a).start m =
      (.error (.malformed (.cause .tooDeep op m.cursor.position)), m) := by
  rw [extend, start_bind, start_target_deep m h]

theorem start_extend {op : Opcode} {n : Nat} {v w : Value} {a : Addition Value} {stack : List Slot}
    (m : Machine) (h : n + 1 ≤ maxNesting) (hs : m.stack = .owned ⟨v, 1⟩ :: stack)
    (hw : v.Extends a w) :
    (extend op n a).start m = (.ok (), { m with stack := .owned ⟨w, n + 1⟩ :: stack }) := by
  rw [extend, start_bind, start_target_owned m h hs]
  simp only [Value.extend?_eq_some_iff.mpr hw, setTarget, modifyTop, start_modify,
    Nat.max_eq_right (Nat.le_add_left 1 n)]

/-- A container that is extended in place closes if the addition takes the empty
one to the whole, and stops at the check of its levels otherwise. -/
theorem closes_extend {op : Opcode} {i : Instruction} {v e : Value} {a : Addition Value}
    (hv : v.Plain) (hextends : e.Extends a v) (hvessel : vessel v = [.owned ⟨e, 1⟩])
    (hstep : ∀ m m' : Machine, (popMarked op).start m =
      (.ok ⟨v.children, Value.innerNesting v.children⟩, m') →
      (Machine.step r op i).start m = (extend op (Value.innerNesting v.children) a).start m') :
    Closes r op i v := by
  intro m
  have hpop : (popMarked op).start (m.gathering v v.children) =
      (.ok ⟨v.children, Value.innerNesting v.children⟩,
        { m with stack := .owned ⟨e, 1⟩ :: m.stack }) := by
    rw [start_popMarked _ hv.children rfl rfl, hvessel]
    rfl
  rw [Value.nesting_of_nests hextends.nests.2, hstep _ _ hpop]
  constructor
  · intro h
    rw [start_extend _ h rfl hextends, holding, Value.nesting_of_nests hextends.nests.2]
  · intro h
    exact ⟨_, _, start_extend_deep { m with stack := .owned ⟨e, 1⟩ :: m.stack } h⟩

theorem exists_closes {v : Value} (hv : v.Plain) (hn : v.nests) :
    ∃ op i, v.closing = [op.code] ∧ (∀ offset c, (Fetch.instruction offset op).start c = (.ok i, c)) ∧
      i ≠ .stop ∧ Closes r op i v := by
  cases hv with
  | leaf _ => cases hn
  | tuple h =>
    exact ⟨.tuple, .gather .tuple, rfl, fun _ _ => rfl, by simp,
      closes_gather (.tuple h) rfl (if_neg (by simp))⟩
  | frozenSet h hd =>
    exact ⟨.frozenSet, .gather .frozenSet, rfl, fun _ _ => rfl, by simp,
      closes_gather (.frozenSet h hd) rfl (by rw [if_pos rfl, Value.distinctItems_of_pairwise hd])⟩
  | @list items h =>
    refine ⟨.appends, .appends, rfl, fun _ _ => rfl, by simp,
      closes_extend (.list h) (.list [] items) rfl ?_⟩
    intro m m' hpop
    rw [Machine.step, start_bind, hpop]
    rfl
  | @set items h hd =>
    refine ⟨.addItems, .addItems, rfl, fun _ _ => rfl, by simp,
      closes_extend (.set h hd) (.set [] items) rfl ?_⟩
    intro m m' hpop
    rw [Machine.step, start_bind, hpop]
    rfl
  | @dict entries hk hv hd =>
    have hpairs := pairsOnto?_flatMap [] entries
    refine ⟨.setItems, .setItems, rfl, fun _ _ => rfl, by simp,
      closes_extend (.dict hk hv hd) (.dict [] entries) rfl ?_⟩
    intro m m' hpop
    rw [Machine.step, start_bind, hpop]
    simp only [start_bind, pairs, Value.children, hpairs]
    rfl

theorem Pushes.contents {v : Value} (hv : v.Plain) (hn : v.nests)
    (hc : Pushes r (v.children.flatMap Value.encode) v.children) : Pushes r v.encode [v] := by
  intro m p rest
  obtain ⟨op, i, hclosing, hi, hstop, hcloses⟩ := exists_closes (r := r) hv hn
  rw [Value.encode_eq, hclosing]
  simp only [List.append_assoc]
  have hopen := opening_advances (r := r) hv hn m p
    (v.children.flatMap Value.encode ++ ([op.code] ++ rest))
  obtain ⟨hfit, hdeep⟩ := hc (m.gathering v []) (p + v.opening.length) ([op.code] ++ rest)
  have hgathered : { m.gathering v [] with
      stack := (v.children.map holding).reverse ++ (m.gathering v []).stack } =
        m.gathering v v.children := by
    simp [gathering]
  rw [hgathered] at hfit
  obtain ⟨hclosefit, hclosedeep⟩ := hcloses (m.facing
    (p + v.opening.length + (v.children.flatMap Value.encode).length + 1) rest)
  have hend : p + (v.opening ++ (v.children.flatMap Value.encode ++ [op.code])).length =
      p + v.opening.length + (v.children.flatMap Value.encode).length + 1 := by
    simp only [List.length_append, List.length_cons, List.length_nil]
    omega
  constructor
  · intro hall
    have hfits := hall v (List.mem_singleton_self v)
    have hinner : ∀ c ∈ v.children, c.nesting ≤ maxNesting := fun c hcm =>
      Nat.le_of_lt (Nat.lt_of_lt_of_le (Value.nesting_lt_of_mem hcm) hfits)
    rw [hend]
    exact hopen.trans ((hfit hinner).trans
      (Advances.operand (m := m.gathering v v.children) (hi _) hstop (hclosefit hfits)))
  · rintro ⟨u, hu, hlevels⟩
    rw [List.mem_singleton.mp hu] at hlevels
    by_cases hinner : ∀ c ∈ v.children, c.nesting ≤ maxNesting
    · obtain ⟨f, m', hf⟩ := hclosedeep hlevels
      exact hopen.breaks ((hfit hinner).breaks
        (Breaks.operand (m := m.gathering v v.children) (hi _) hstop hf))
    · have hsome : ∃ c ∈ v.children, maxNesting < c.nesting := by simpa using hinner
      exact hopen.breaks ((hdeep hsome).append [op.code])

theorem encode_pushes {v : Value} (hv : v.Plain) : Pushes r v.encode [v] := by
  induction v using Value.childInduction with
  | step v ih =>
    have hc := Pushes.flatMap fun c hcm => ih c hcm (hv.children c hcm)
    by_cases hn : v.nests
    · exact Pushes.contents hv hn hc
    · cases hv with
      | leaf hl =>
        rw [Value.encode_eq]
        simpa [Value.opening, Value.closing, Value.children] using Pushes.leaf hl
      | _ => exact absurd rfl hn

theorem start_finish {m : Machine} {s : Slot} (hs : m.stack = [s]) (hm : m.suspended = []) :
    finish.start m = (Held.value <$> resolve .stop s).start { m with stack := [] } := by
  rw [finish, start_bind, start_get]
  simp only [hs, hm, List.isEmpty_nil, Bool.not_true, Bool.false_eq_true, if_false]
  rw [start_bind, start_set]

theorem start_next_stop {p depth : Nat} {v : Value} (m : Machine) (hv : v.normalize = v)
    (hs : m.stack = [.owned ⟨v, depth⟩]) (hm : m.suspended = []) :
    (next r).start (m.facing p [Opcode.stop.code]) =
      (.ok (some v), { m with stack := [] }.facing (p + 1) []) := by
  have hfinish := start_finish (m := m.facing (p + 1) []) hs hm
  rw [start_map, start_resolve_owned, hv] at hfinish
  rw [next, start_bind, start_get]
  simp only [start_bind, onCursor, start_on, facing, start_u8, Opcode.ofByte?_code]
  rw [Fetch.instruction, start_pure]
  simp only [facing] at hfinish
  simp only [start_map, hfinish]
  rfl

/-- A stream that leads to one value on the stack is loaded with a stop after it. -/
theorem Advances.load {data : Bytes} {m : Machine} {v : Value} {p depth : Nat}
    (h : Advances r data (ofBytes (data ++ [Opcode.stop.code])) m)
    (hc : m.cursor = ⟨p, [Opcode.stop.code]⟩) (hv : v.normalize = v)
    (hs : m.stack = [.owned ⟨v, depth⟩]) (hm : m.suspended = []) :
    (ofBytes (data ++ [Opcode.stop.code])).load r =
      (.ok v, { m with stack := [] }.facing (p + 1) []) := by
  have hsize : (ofBytes (data ++ [Opcode.stop.code])).cursor.size = data.length + 1 :=
    List.length_append
  obtain ⟨k, hk, hrun⟩ := h
  obtain ⟨n, hn⟩ : ∃ n, data.length + 1 = k + (n + 1) := ⟨data.length - k, by omega⟩
  have hload : (ofBytes (data ++ [Opcode.stop.code])).load r =
      run r (k + (n + 1)) (ofBytes (data ++ [Opcode.stop.code])) := by
    rw [Machine.load, hsize, hn]
    rfl
  have hfacing : m = m.facing p [Opcode.stop.code] := by rw [facing, ← hc]
  rw [hload, hrun, run, hfacing, start_next_stop m hv hs hm]
  rfl

/-- Loading the stream of a plain value gives that value, without reports and
with nothing of the stream left, unless it nests too many levels. -/
theorem load_encode {v : Value} (hv : v.Plain) (r : Registry) :
    (v.nesting ≤ maxNesting →
      ∃ m, (ofBytes (v.encode ++ [Opcode.stop.code])).load r = (.ok v, m) ∧
        m.diagnostics = [] ∧ m.cursor = ⟨(v.encode ++ [Opcode.stop.code]).length, []⟩) ∧
    (maxNesting < v.nesting →
      ∃ f, loads (v.encode ++ [Opcode.stop.code]) r = .error (.malformed f)) := by
  obtain ⟨hfit, hdeep⟩ := encode_pushes (r := r) hv
    (ofBytes (v.encode ++ [Opcode.stop.code])) 0 [Opcode.stop.code]
  simp only [List.forall_mem_singleton] at hfit
  constructor
  · intro h
    refine ⟨_, (hfit h).load rfl hv.normalize rfl rfl, rfl, ?_⟩
    rw [List.length_append, Nat.zero_add]
    rfl
  · intro h
    have hsize : (ofBytes (v.encode ++ [Opcode.stop.code])).cursor.size = v.encode.length + 1 :=
      List.length_append
    obtain ⟨k, f, hk, hrun⟩ := hdeep ⟨v, List.mem_singleton_self v, h⟩
    obtain ⟨n, hn⟩ : ∃ n, v.encode.length + 1 = k + n := ⟨v.encode.length + 1 - k, by omega⟩
    refine ⟨f, ?_⟩
    rw [loads, load, hsize, hn]
    exact hrun n

theorem nesting_listTower (n : Nat) :
    (Nat.repeat (fun v => Value.list [v]) n .none).nesting = n := by
  induction n with
  | zero => exact Value.nesting_leaf .none
  | succ n ih =>
    rw [Nat.repeat, Value.nesting_of_nests rfl, Value.innerNesting]
    simp only [Value.children, List.map_cons, List.map_nil, List.foldl_cons, List.foldl_nil, ih]
    omega

theorem plain_listTower (n : Nat) : (Nat.repeat (fun v => Value.list [v]) n .none).Plain := by
  induction n with
  | zero => exact .leaf trivial
  | succ n ih => exact .list (by simpa using ih)

/-- Lists in lists load up to the limit, and are malformed one level above it. -/
theorem load_encode_listTower :
    (Nat.repeat (fun v => Value.list [v]) 256 .none).Plain ∧
      loads ((Nat.repeat (fun v => Value.list [v]) 256 .none).encode ++ [Opcode.stop.code]) .empty =
        .ok (Nat.repeat (fun v => Value.list [v]) 256 .none) ∧
      (Nat.repeat (fun v => Value.list [v]) 257 .none).Plain ∧
      ∃ f, loads ((Nat.repeat (fun v => Value.list [v]) 257 .none).encode ++ [Opcode.stop.code])
        .empty = .error (.malformed f) := by
  obtain ⟨m, hload, -⟩ := (load_encode (plain_listTower 256) .empty).1
    (by rw [nesting_listTower]; decide)
  have hdeep := (load_encode (plain_listTower 257) .empty).2 (by rw [nesting_listTower]; decide)
  refine ⟨plain_listTower 256, ?_, plain_listTower 257, hdeep⟩
  rw [loads, hload]

end Machine

end PickledModel
