import PickledModel.Proofs.Object.Growth
import PickledModel.Proofs.Stream.Parts
import PickledModel.Proofs.Stream.Worth

/-! How much a machine comes to hold. A byte of the stream pays for four values:
until the first copy is made, what a machine holds is worth at most four for each
byte that it has read. -/

set_option autoImplicit false

namespace PickledModel
open Value

theorem Value.worthAll_children_dict (entries : List (Value × Value)) :
    worthAll (dict entries).children = worthEntries entries :=
  sum_children_dict worth entries

theorem Value.Extends.worth {v w : Value} {a : Addition Value} (h : v.Extends a w) :
    w.worth = v.worth + worthAll a.children := by
  have hown : w.ownWorth = v.ownWorth := by cases h <;> rfl
  rw [worth_eq, worth_eq v, hown, h.children, worthAll_append, Nat.add_assoc]

namespace Machine
open Process

variable {op : Opcode} {m : Machine}

theorem extend_adds (n : Nat) (a : Addition Value) :
    Adds (extend op n a) (worthAll a.children) fun _ => 0 := by
  apply target_adds
  rintro m ⟨v, d⟩ ht
  dsimp only
  split
  · next w hw =>
    exact setTarget_adds ht (Nat.le_of_eq (extend?_eq_some_iff.mp hw).worth)
  · exact fail_adds _ _ m

theorem pairsOnto?_worth {done entries : List (Value × Value)} {items : List Value}
    (h : pairsOnto? done items = some entries) :
    worthEntries entries = worthEntries done + worthAll items := by
  induction done, items using pairsOnto?.induct with
  | case1 done =>
    obtain rfl := Option.some.inj h
    simp [worthEntries, List.sum_reverse]
  | case2 done key value items ih =>
    have := ih h
    simp only [worthEntries, List.map_cons, List.sum_cons, worthAll_cons] at this ⊢
    omega
  | case3 => cases h

theorem pairs_adds (items : List Value) : Adds (pairs op items) (worthAll items) worthEntries := by
  unfold pairs
  cases h : pairsOnto? [] items with
  | none => exact fail_adds _ _
  | some entries =>
    have := pairsOnto?_worth h
    apply Grows.pure
    rw [this]
    exact Nat.le_of_eq (Nat.zero_add _)

theorem arguments_adds (v : Value) : Adds (arguments op v) v.worth worthAll := by
  unfold arguments
  cases h : v.items? with
  | none => exact fail_adds _ _
  | some items =>
    have := worth_of_items? h
    apply Grows.pure
    omega

/-- A call adds at most eight values, four of which the called global stood for. -/
theorem call_adds (r : Registry) (n : Nat) (callee : Value) (args : List Value) :
    Adds (call r op n callee args) (callee.worth + worthAll args + 4) fun _ => 0 := by
  unfold call
  split
  · next name =>
    apply Grows.bind (w := fun o => o.value.worth)
    · apply Grows.ofExcept
      intro o ho
      have := Call.run_worth ho
      rw [worth_global]
      omega
    intro o
    apply Grows.bind (w := fun _ => o.value.worth)
    · exact Grows.modify (fun _ => rfl) fun _ => Nat.le_refl _
    · exact fun _ => push_adds n o.value
  · exact fail_adds _ _

theorem buildTop_adds (state : Held) :
    Adds (buildTop op state) state.value.worth fun _ => 0 := by
  apply target_adds
  rintro m ⟨v, d⟩ ht
  dsimp only
  split
  · next typeName body =>
    have hrestore := (Body.restore_grows typeName state.value (body, m.cursor)).size_le rfl
    simp only [start_bind, start_get, start_set, start_ofExcept]
    generalize (Body.restore typeName state.value).start (body, m.cursor) = o at hrestore
    obtain ⟨r, body', c⟩ := o
    obtain ⟨hallowance, hreserve⟩ := reserve_mapTop_le (m := { m with cursor := c })
      (fun h => { h with value := .object typeName body' }) ht
    refine ⟨Nat.le_of_eq hallowance, fun _ => ?_⟩
    have hresult : worthOf (fun _ => 0) r = 0 := by cases r <;> rfl
    change (mapTop _ { m with cursor := c }).reserve + worthOf _ r ≤ _
    simp only [worth_object, reserve, worth, hresult] at hreserve hrestore ⊢
    omega
  · exact fail_adds _ _ m

variable {i : Instruction}

theorem move_adds (r : Registry) (h : i.moves = true) : Adds (step r op i) 0 fun _ => 0 := by
  cases i with
  | nothing | stop => exact Grows.pure (Nat.le_refl 0)
  | inspect => exact topSlot_adds.bind fun _ => Grows.pure (Nat.le_refl 0)
  | mark =>
    apply Grows.modify
    · exact fun _ => rfl
    · intro m
      simp only [reserve, worth, List.flatten_cons, slotsWorth_append, slotsWorth_nil]
      omega
  | pop =>
    apply Grows.get
    intro m
    split
    · exact popMark_adds.bind fun _ => Grows.pure (Nat.zero_le _)
    · exact popSlot_adds.bind fun _ => Grows.pure (Nat.zero_le _)
  | popMark => exact popMark_adds.bind fun _ => Grows.pure (Nat.zero_le _)
  | dup => exact dup_adds
  | get k => exact pushMemo_adds k
  | put k => exact put_adds k
  | memoize =>
    apply Grows.get
    intro m
    dsimp only
    split
    · exact put_adds _
    · exact fail_adds _ _
  | _ => cases h

/-- The values that are taken out are part of the one that is made. -/
theorem make_adds (r : Registry) (h : i.makes = true) : Adds (step r op i) 4 fun _ => 0 := by
  cases i with
  | tuple n =>
    apply ((popValues_adds n).aside 4).bind
    intro g
    apply (push_adds g.depth _).raise
    rw [worth_sequence]
    omega
  | gather kind =>
    apply (popMarked_adds.aside 4).bind
    intro g
    apply (push_adds g.depth _).raise
    have := worthAll_distinctItems_le g.values
    rw [worth_sequence]
    split <;> omega
  | gatherDict =>
    apply (popMarked_adds.aside 4).bind
    intro g
    apply ((pairs_adds g.values).frame 4).bind
    intro entries
    apply (push_adds g.depth _).raise
    rw [worth_dict]
    omega
  | stackGlobal =>
    apply (popValue_adds.aside 4).bind
    intro name
    apply (popValue_adds.aside (name.value.worth + 4)).bind
    intro module_
    split
    · next m n hm hn =>
      apply (push_adds 0 _).raise
      rw [worth_global]
      omega
    · exact fail_adds _ _
  | _ => cases h

/-- What is taken out is kept aside until it is part of the value that is put back. -/
theorem fill_adds (r : Registry) (h : i.fills = true) : Adds (step r op i) 0 fun _ => 0 := by
  cases i with
  | append =>
    apply popValue_adds.bind
    intro h
    exact extend_adds h.depth (.toList [h.value])
  | appends => exact popMarked_adds.bind fun g => extend_adds g.depth (.toList g.values)
  | setItem =>
    apply popValue_adds.bind
    intro value
    apply (popValue_adds.aside value.value.worth).bind
    intro key
    exact extend_adds _ (.toDict [(key.value, value.value)])
  | setItems =>
    apply popMarked_adds.bind
    intro g
    apply (pairs_adds g.values).bind
    intro entries
    exact (extend_adds g.depth (.toDict entries)).raise
      (Nat.le_of_eq (worthAll_children_dict entries))
  | addItems => exact popMarked_adds.bind fun g => extend_adds g.depth (.toSet g.values)
  | _ => cases h

theorem invoke_adds (r : Registry) (h : i.calls = true) :
    Adds (step r op i) (4 + i.reserve) fun _ => 0 := by
  cases i with
  | call =>
    apply (popValue_adds.aside 4).bind
    intro args
    apply (popValue_adds.aside (args.value.worth + 4)).bind
    intro callee
    apply ((arguments_adds args.value).within (callee.value.worth + 4) (by omega)).bind
    intro items
    apply (call_adds r _ callee.value items).raise
    omega
  | callWithKeywords =>
    apply (popValue_adds.aside 4).bind
    intro keywords
    apply (popValue_adds.aside (keywords.value.worth + 4)).bind
    intro args
    apply (popValue_adds.within (args.value.worth + 4) (by omega)).bind
    intro callee
    apply ((arguments_adds args.value).within (callee.value.worth + 4) (by omega)).bind
    intro items
    apply (call_adds r _ callee.value items).raise
    omega
  | callMarked =>
    apply (popMarked_adds.aside 4).bind
    intro g
    split
    · exact fail_adds _ _
    · next callee args heq =>
      apply (call_adds r _ callee args).raise
      rw [heq, worthAll_cons]
  | callNamed name =>
    apply (popMarked_adds.aside 8).bind
    intro g
    apply (call_adds r _ (.global name) g.values).raise
    rw [worth_global]
    omega
  | _ => cases h

/-- An instruction adds at most four values, and what its operands pay for. -/
theorem step_adds (r : Registry) (op : Opcode) {i : Instruction} (hi : i.Flat) :
    Adds (step r op i) (4 + i.reserve) fun _ => 0 := by
  cases i with
  | push v => exact (push_adds 0 v).raise (worth_of_childless hi)
  | nothing | stop | inspect | mark | pop | popMark | dup | get | put | memoize =>
    exact (move_adds r rfl).raise (Nat.zero_le _)
  | tuple | gather | gatherDict | stackGlobal => exact make_adds r rfl
  | append | appends | setItem | setItems | addItems =>
    exact (fill_adds r rfl).raise (Nat.zero_le _)
  | call | callWithKeywords | callMarked | callNamed => exact invoke_adds r rfl
  | build =>
    have hbuild : Adds (step r op .build) 0 fun _ => 0 :=
      popValue_adds.bind fun state => buildTop_adds state
    exact hbuild.raise (Nat.zero_le _)

theorem finish_adds : Adds finish 0 fun _ => 0 := by
  intro m
  have hshrinks : { m with stack := [] }.reserve + slotsWorth m.stack ≤ m.reserve := by
    simp only [reserve, worth, slotsWorth_nil]
    omega
  have hdropped : ∀ e : LoadError, GrowsFrom Machine.allowance reserve m
      ((.error e : Except LoadError Value), { m with stack := [] }) 0 fun _ => 0 := by
    intro e
    refine ⟨Nat.le_refl _, fun _ => ?_⟩
    simp only [worthOf]
    omega
  rw [finish, start_bind, start_get]
  dsimp only
  cases m.suspended.isEmpty with
  | false =>
    change GrowsFrom _ _ m (.error (.malformed (.cause .unclosedMark .stop m.cursor.position)), m) 0 _
    exact ⟨Nat.le_refl _, fun _ => Nat.le_refl _⟩
  | true =>
    cases hs : m.stack with
    | nil => exact hdropped _
    | cons s rest =>
      cases rest with
      | cons s' rest => exact hdropped _
      | nil =>
        rw [hs, slotsWorth_cons, slotsWorth_nil] at hshrinks
        have hresolve : Adds (Held.value <$> resolve .stop s) s.worth fun _ => 0 :=
          (resolve_adds s).map fun _ => Nat.zero_le _
        apply (hresolve { m with stack := [] }).after
        · exact Nat.le_refl _
        · intro _
          omega

theorem perform_adds (r : Registry) (op : Opcode) {i : Instruction} (hi : i.Flat) :
    Adds (perform r op i) (4 + i.reserve) fun _ => 0 := by
  cases i with
  | stop => exact (finish_adds.raise (Nat.zero_le _)).map fun _ => Nat.le_refl _
  | _ => exact (step_adds r op hi).bind fun _ => Grows.pure (Nat.le_refl 0)

/-- Where the next instruction copies nothing, what it adds is paid for by the
bytes that it takes. -/
theorem next_adds (r : Registry) : Adds (next r) 0 fun _ => 0 := by
  apply Grows.get
  intro m
  apply (onCursor_adds (read_pays ((Cursor.word_takes 1).map _))).bind
  intro code
  split
  · exact Grows.get fun _ => Grows.throw _ _
  · next op _ =>
    have hflat : Keeps (fun _ => True) (onCursor (Fetch.instruction m.cursor.position op))
        Instruction.Flat :=
      (Fetch.instruction_flat _ op).on (fun _ _ => trivial) fun _ _ _ _ => trivial
    apply ((onCursor_adds (Fetch.instruction_pays _ op)).aside 4).bind_ensured hflat
    intro i hi
    have hperform := (perform_adds r op hi).raise (Nat.le_of_eq (Nat.add_comm _ _))
    cases i <;> exact hperform

end Machine
end PickledModel