import PickledModel.Proofs.Bytes.Relocation
import PickledModel.Proofs.Stream.Copying
import PickledModel.Proofs.Stream.RoundTrip

/-! A machine in the place of another. What a process does is settled by the stack
and by the memo entries that it looks at; the rest is paid for, in bytes of the
stream and in copies of the allowance. So a process that succeeds does the same on
every machine that has the same stack, knows the same entries and can pay, whatever
else its memo holds and wherever its stream has come from. -/

set_option autoImplicit false

namespace PickledModel

/-- Which memos may take the place of which: all that the first one knows the second
one knows, through every change that both make. An entry that the first one lacks may
change in the second. -/
structure Overlay where
  covers : Memo → Memo → Prop
  lookup : ∀ {memo memo' : Memo} {k : Nat} {h : Held}, covers memo memo' →
    memo[k]? = some h → memo'[k]? = some h
  insert : ∀ {memo memo' : Memo} (k : Nat) (h : Held), covers memo memo' →
    covers (memo.insert k h) (memo'.insert k h)
  spare : ∀ {memo memo' : Memo} {k : Nat} {g : Held} (h : Held), covers memo memo' →
    memo[k]? = none → memo'[k]? = some g → covers memo (memo'.insert k h)

namespace Overlay

def same : Overlay where
  covers memo memo' := memo' = memo
  lookup h hk := by rw [h, hk]
  insert k h hm := by rw [hm]
  spare h hm hk hg := by
    rw [hm, hk] at hg
    cases hg

def Counts (o : Overlay) : Prop :=
  ∀ {memo memo' : Memo}, o.covers memo memo' → memo'.size = memo.size

theorem same_counts : same.Counts := fun h => congrArg Std.TreeMap.size h

def more : Overlay where
  covers memo memo' := ∀ k h, memo[k]? = some h → memo'[k]? = some h
  lookup hm hk := hm _ _ hk
  insert k h hm := by
    intro j g hj
    rw [Std.TreeMap.getElem?_insert] at hj ⊢
    split at hj
    · next hkj => rw [if_pos hkj, hj]
    · next hkj => rw [if_neg hkj, hm j g hj]
  spare h hm hk _ := by
    intro j g hj
    rw [Std.TreeMap.getElem?_insert, if_neg, hm j g hj]
    intro hkj
    obtain rfl := Std.LawfulEqCmp.eq_of_compare hkj
    rw [hk] at hj
    cases hj

end Overlay

namespace Machine
open Process

variable {α β : Type} {o : Overlay} {m m' t t' : Machine} {used later : Bytes} {spent cost : Nat}

/-- A machine that can take the place of another: the stream and the allowance are its own. -/
structure Overlaid (o : Overlay) (m m' : Machine) : Prop where
  stack : m'.stack = m.stack
  suspended : m'.suspended = m.suspended
  memo : o.covers m.memo m'.memo
  reports : m'.reports = m.reports

structure Paid (used : Bytes) (spent : Nat) (m t : Machine) : Prop where
  bytes : Cursor.Over used m.cursor t.cursor
  copies : m.allowance = spent + t.allowance
  limit : t.copyLimit = m.copyLimit

structure Affords (used : Bytes) (spent : Nat) (m : Machine) : Prop where
  bytes : used <+: m.cursor.rest
  copies : spent ≤ m.allowance

theorem Paid.nothing (hcursor : t.cursor = m.cursor) (hallowance : t.allowance = m.allowance)
    (hlimit : t.copyLimit = m.copyLimit) : Paid [] 0 m t where
  bytes := hcursor ▸ .refl _
  copies := by rw [hallowance, Nat.zero_add]
  limit := hlimit

theorem Paid.trans {u : Machine} (h : Paid used spent m t) (h' : Paid later cost t u) :
    Paid (used ++ later) (spent + cost) m u where
  bytes := h.bytes.trans h'.bytes
  copies := by rw [h.copies, h'.copies, Nat.add_assoc]
  limit := h'.limit.trans h.limit

theorem Affords.first (h : Affords (used ++ later) (spent + cost) m) : Affords used spent m where
  bytes := (List.prefix_append used later).trans h.bytes
  copies := Nat.le_of_add_right_le h.copies

theorem Affords.rest (h : Affords (used ++ later) (spent + cost) m) (hp : Paid used spent m t) :
    Affords later cost t where
  bytes := by
    have hbytes := h.bytes
    rwa [hp.bytes.rest, List.prefix_append_right_inj] at hbytes
  copies := by
    have hcopies := h.copies
    rw [hp.copies] at hcopies
    omega

theorem Affords.over (h : Affords used spent m) : ∃ c, Cursor.Over used m.cursor c := by
  obtain ⟨rest, hrest⟩ := h.bytes
  exact ⟨⟨m.cursor.position + used.length, rest⟩, hrest.symm, rfl⟩

def Carried (o : Overlay) (run : Machine → Except LoadError α × Machine) (a : α) (m t : Machine) :
    Prop :=
  ∃ used spent, Paid used spent m t ∧ ∀ m', Overlaid o m m' → Affords used spent m' →
    ∃ t', run m' = (.ok a, t') ∧ Overlaid o t t' ∧ Paid used spent m' t'

theorem Carried.imp {run : Machine → Except LoadError α × Machine} {a : α} {b : β}
    {run' : Machine → Except LoadError β × Machine} (h : Carried o run a m t)
    (hrun : ∀ m' t', run m' = (.ok a, t') → run' m' = (.ok b, t')) : Carried o run' b m t := by
  obtain ⟨used, spent, hpaid, hthere⟩ := h
  refine ⟨used, spent, hpaid, fun m' hm haff => ?_⟩
  obtain ⟨t', hstart, ht, hpaid'⟩ := hthere m' hm haff
  exact ⟨t', hrun m' t' hstart, ht, hpaid'⟩

theorem Carried.congr {run run' : Machine → Except LoadError α × Machine} {a : α}
    (h : Carried o run a m t) (hrun : ∀ m', Overlaid o m m' → run' m' = run m') :
    Carried o run' a m t := by
  obtain ⟨used, spent, hpaid, hthere⟩ := h
  refine ⟨used, spent, hpaid, fun m' hm haff => ?_⟩
  rw [hrun m' hm]
  exact hthere m' hm haff

/-- What goes on from another stack pays for it alike. -/
theorem Carried.restack {run run' : Machine → Except LoadError α × Machine} {a : α}
    {stack : List Slot} (h : Carried o run a { m with stack } t)
    (hrun : ∀ m', Overlaid o m m' → run' m' = run { m' with stack }) : Carried o run' a m t := by
  obtain ⟨used, spent, hpaid, hthere⟩ := h
  refine ⟨used, spent, ⟨hpaid.bytes, hpaid.copies, hpaid.limit⟩, fun m' hm haff => ?_⟩
  obtain ⟨t', hstart, ht, hpaid'⟩ := hthere { m' with stack } { hm with stack := rfl }
    ⟨haff.bytes, haff.copies⟩
  exact ⟨t', (hrun m' hm).trans hstart, ht, hpaid'.bytes, hpaid'.copies, hpaid'.limit⟩

/-- One success after another: what the second takes is left by the first. -/
theorem Carried.then {first : Machine → Except LoadError α × Machine}
    {second whole : Machine → Except LoadError β × Machine} {a : α} {b : β} {u : Machine}
    (h : Carried o first a m t) (h' : Carried o second b t u)
    (hwhole : ∀ m' t', first m' = (.ok a, t') → whole m' = second t') :
    Carried o whole b m u := by
  obtain ⟨used, spent, hpaid, hthere⟩ := h
  obtain ⟨later, cost, hpaid', hthere'⟩ := h'
  refine ⟨used ++ later, spent + cost, hpaid.trans hpaid', fun m' hm haff => ?_⟩
  obtain ⟨t', hstart, ht, hpaid₁⟩ := hthere m' hm haff.first
  obtain ⟨u', hstart', hu, hpaid₂⟩ := hthere' t' ht (haff.rest hpaid₁)
  exact ⟨u', (hwhole m' t' hstart).trans hstart', hu, hpaid₁.trans hpaid₂⟩

def Transfers (o : Overlay) (p : Process Machine α) : Prop :=
  ∀ m a t, p.start m = (.ok a, t) → Carried o p.start a m t

namespace Transfers

variable {p : Process Machine α}

/-- What takes nothing may be done by any machine. -/
theorem free (h : ∀ m a t, p.start m = (.ok a, t) → Paid [] 0 m t ∧ ∀ m', Overlaid o m m' →
    ∃ t', p.start m' = (.ok a, t') ∧ Overlaid o t t' ∧ Paid [] 0 m' t') : Transfers o p := by
  intro m a t hs
  obtain ⟨hpaid, hthere⟩ := h m a t hs
  exact ⟨[], 0, hpaid, fun m' hm _ => hthere m' hm⟩

theorem pure (a : α) : Transfers o (Pure.pure a : Process Machine α) := by
  apply free
  rintro m _ _ ⟨⟩
  exact ⟨.nothing rfl rfl rfl, fun m' hm => ⟨m', rfl, hm, .nothing rfl rfl rfl⟩⟩

theorem throw (e : LoadError) : Transfers o (MonadExcept.throw e : Process Machine α) := by
  rintro m a t ⟨⟩

theorem fail (op : Opcode) (c : Cause) : Transfers o (Machine.fail op c : Process Machine α) := by
  rintro m a t ⟨⟩

theorem ofExcept (r : Except LoadError α) : Transfers o (Process.ofExcept r) := by
  cases r with
  | error e => exact throw e
  | ok a => exact pure a

theorem bind {f : α → Process Machine β} (hp : Transfers o p) (hf : ∀ a, Transfers o (f a)) :
    Transfers o (p >>= f) := by
  intro m b u h
  obtain ⟨a, t, ha, hb⟩ := start_bind_ok h
  apply (hp m a t ha).then (hf a t b u hb)
  intro m' t' hstart
  rw [start_bind, hstart]

theorem map (f : α → β) (h : Transfers o p) : Transfers o (f <$> p) := by
  rw [← bind_pure_comp]
  exact h.bind fun a => pure (f a)

theorem mapM {f : β → Process Machine α} (h : ∀ x, Transfers o (f x)) (xs : List β) :
    Transfers o (xs.mapM f) := by
  induction xs with
  | nil => exact pure []
  | cons x xs ih =>
    rw [List.mapM_cons]
    exact (h x).bind fun y => ih.bind fun ys => pure (y :: ys)

theorem modify {f : Machine → Machine} (hpaid : ∀ m, Paid [] 0 m (f m))
    (hf : ∀ m m', Overlaid o m m' → Overlaid o (f m) (f m')) :
    Transfers o (modify f : Process Machine PUnit) := by
  apply free
  rintro m _ _ ⟨⟩
  exact ⟨hpaid m, fun m' hm => ⟨f m', rfl, hf m m' hm, hpaid m'⟩⟩

/-- A process may depend on what two such machines have in common. -/
theorem look {f : Machine → Process Machine α} (hsame : ∀ m m', Overlaid o m m' → f m' = f m)
    (hf : ∀ m, Transfers o (f m)) : Transfers o (get >>= f) := by
  intro m a t h
  rw [start_bind, start_get] at h
  apply (hf m m a t h).congr
  intro m' hm
  rw [start_bind, start_get]
  dsimp only
  rw [hsame m m' hm]

end Transfers

theorem Overlaid.held (hm : Overlaid o m m') {s : Slot} {h : Held} (hs : m.held? s = some h) :
    m'.held? s = some h := by
  cases s with
  | owned g => exact hs
  | memo k => exact o.lookup hm.memo hs

theorem Overlaid.top (hm : Overlaid o m m') {h : Held} (hs : m.top? = some h) :
    m'.top? = some h := by
  obtain ⟨s, hhead, hheld⟩ := Option.bind_eq_some_iff.mp hs
  rw [top?, hm.stack, hhead]
  exact hm.held hheld

section
variable (op : Opcode)

theorem chargeCopy_transfers (v : Value) : Transfers o (chargeCopy op v) := by
  intro m u t h
  rw [start_chargeCopy] at h
  by_cases hv : v.cost ≤ m.allowance
  · rw [if_pos hv] at h
    cases h
    refine ⟨[], v.cost, ⟨.refl _, (Nat.add_sub_of_le hv).symm, rfl⟩, fun m' hm haff => ?_⟩
    refine ⟨{ m' with allowance := m'.allowance - v.cost }, ?_, { hm with },
      ⟨.refl _, (Nat.add_sub_of_le haff.copies).symm, rfl⟩⟩
    rw [start_chargeCopy, if_pos haff.copies]
  · rw [if_neg hv] at h
    cases h

theorem copyMemo_transfers (k : Nat) : Transfers o (copyMemo op k) := by
  intro m h t hstart
  rw [copyMemo, start_bind, start_get] at hstart
  cases hk : m.memo[k]? with
  | none =>
    simp only [hk] at hstart
    cases hstart
  | some g =>
    simp only [hk] at hstart
    have hcharge : Transfers o (do chargeCopy op g.value; return g) :=
      (chargeCopy_transfers op g.value).bind fun _ => .pure g
    apply (hcharge m h t hstart).congr
    intro m' hm
    rw [copyMemo, start_bind, start_get]
    simp only [o.lookup hm.memo hk]

theorem resolve_transfers (s : Slot) : Transfers o (resolve op s) := by
  cases s with
  | owned h => exact .pure _
  | memo k => exact (copyMemo_transfers op k).bind fun _ => .pure _

theorem resolveAll_transfers (slots : List Slot) : Transfers o (resolveAll op slots) :=
  (Transfers.mapM (resolve_transfers op) slots).bind fun _ => .pure _

theorem pushSlot_transfers (s : Slot) : Transfers o (pushSlot s) :=
  .modify (fun _ => .nothing rfl rfl rfl) fun _ _ hm =>
    { hm with stack := congrArg (s :: ·) hm.stack }

theorem checkDepth_transfers (n : Nat) : Transfers o (checkDepth op n) := by
  unfold checkDepth
  split
  · exact .fail op _
  · exact .pure _

theorem push_transfers (n : Nat) (v : Value) : Transfers o (push op n v) :=
  (checkDepth_transfers op _).bind fun _ => pushSlot_transfers _

theorem popSlot_transfers : Transfers o (popSlot op) := by
  apply Transfers.free
  intro m s t h
  obtain ⟨stack, hs, rfl⟩ := popSlot_ok h
  refine ⟨.nothing rfl rfl rfl, fun m' hm => ?_⟩
  exact ⟨_, start_popSlot op s stack m' (hm.stack.trans hs), { hm with stack := rfl },
    .nothing rfl rfl rfl⟩

theorem topSlot_transfers : Transfers o (topSlot op) := by
  apply Transfers.look
  · intro m m' hm
    rw [hm.stack]
  · intro m
    cases m.stack with
    | nil => exact .fail op _
    | cons s stack => exact .pure s

theorem popMark_transfers : Transfers o (popMark op) := by
  apply Transfers.free
  intro m slots t h
  obtain ⟨stack, suspended, hs, rfl, rfl⟩ := popMark_ok h
  refine ⟨.nothing rfl rfl rfl, fun m' hm => ?_⟩
  rw [← hm.stack]
  exact ⟨_, start_popMark op stack suspended m' (hm.suspended.trans hs),
    { hm with stack := rfl, suspended := rfl }, .nothing rfl rfl rfl⟩

theorem popValue_transfers : Transfers o (popValue op) :=
  (popSlot_transfers op).bind (resolve_transfers op)

theorem popMarked_transfers : Transfers o (popMarked op) :=
  (popMark_transfers op).bind (resolveAll_transfers op)

theorem popValues_transfers (n : Nat) : Transfers o (popValues op n) := by
  intro m g t h
  obtain ⟨hn, hresolve⟩ := popValues_ok h
  apply (resolveAll_transfers op _ { m with stack := m.stack.drop n } g t hresolve).restack
  intro m' hm
  rw [popValues, start_bind, start_get]
  simp only [hm.stack, hn, if_false]
  rfl

theorem Paid.mapTop (f : Held → Held) (m : Machine) : Paid [] 0 m (m.mapTop f) := by
  obtain ⟨stack, memo, hmap⟩ := mapTop_eq f m
  rw [hmap]
  exact .nothing rfl rfl rfl

theorem Paid.built {f g : Held → Held} {c : Cursor} (h : Cursor.Over used m.cursor c) :
    Paid used 0 m (Machine.mapTop f { m.mapTop g with cursor := c }) := by
  have hread : Paid used 0 (m.mapTop g) { m.mapTop g with cursor := c } := by
    refine ⟨?_, (Nat.zero_add _).symm, rfl⟩
    rwa [cursor_mapTop]
  simpa using ((Paid.mapTop g m).trans hread).trans (.mapTop f _)

/-- Where the second machine changes a memo entry that the first one lacks, the first
one does not notice. -/
theorem Overlaid.mapTop (f : Held → Held) (hm : Overlaid o m m') :
    Overlaid o (m.mapTop f) (m'.mapTop f) := by
  have hstack := hm.stack
  cases hs : m.stack with
  | nil =>
    rw [hs] at hstack
    rwa [mapTop_nil f hs, mapTop_nil f hstack]
  | cons s stack =>
    rw [hs] at hstack
    cases s with
    | owned h =>
      rw [mapTop_owned f hs, mapTop_owned f hstack]
      exact { hm with stack := rfl }
    | memo k =>
      rcases mapTop_memo f hs with ⟨h, hk, hmap⟩ | ⟨hk, hmap⟩
      · have hk' := o.lookup hm.memo hk
        rcases mapTop_memo f hstack with ⟨h', hk'', hmap'⟩ | ⟨hnone, -⟩
        · obtain rfl := Option.some.inj (hk'.symm.trans hk'')
          rw [hmap, hmap']
          exact { hm with memo := o.insert k (f h) hm.memo }
        · rw [hk'] at hnone
          cases hnone
      · rcases mapTop_memo f hstack with ⟨h', hk', hmap'⟩ | ⟨-, hmap'⟩
        · -- only the second machine knows the entry
          rw [hmap, hmap']
          exact { hm with memo := o.spare (f h') hm.memo hk hk' }
        · rwa [hmap, hmap']

theorem setTarget_transfers (v : Value) : Transfers o (setTarget v) :=
  .modify (Paid.mapTop _) fun _ _ hm => hm.mapTop _

theorem target_transfers (n : Nat) : Transfers o (target op n) := by
  apply Transfers.free
  intro m v t h
  obtain ⟨hn, rfl, g, hg, rfl⟩ := target_ok h
  exact ⟨.mapTop _ m, fun m' hm =>
    ⟨_, start_target_top hn (hm.top hg), hm.mapTop _, .mapTop _ m'⟩⟩

theorem put_transfers (k : Nat) : Transfers o (put op k) := by
  have hbind : ∀ h : Held, Transfers o (do
      modify fun m : Machine => { m with memo := m.memo.insert k h }
      pushSlot (.memo k)) := by
    intro h
    apply Transfers.bind
    · exact .modify (fun _ => .nothing rfl rfl rfl) fun _ _ hm =>
        { hm with memo := o.insert k h hm.memo }
    · exact fun _ => pushSlot_transfers _
  apply (popSlot_transfers op).bind
  intro s
  cases s with
  | owned h => exact hbind h
  | memo source =>
    dsimp only
    split
    · exact pushSlot_transfers _
    · exact (copyMemo_transfers op source).bind hbind

theorem pushMemo_transfers (k : Nat) : Transfers o (pushMemo op k) := by
  apply Transfers.free
  intro m u t h
  obtain ⟨hk, rfl⟩ := pushMemo_ok h
  obtain ⟨g, hg⟩ := Option.isSome_iff_exists.mp hk
  refine ⟨.nothing rfl rfl rfl, fun m' hm => ?_⟩
  have hcontains : m'.memo.contains k = true := by
    rw [Std.TreeMap.contains_eq_isSome_getElem?, o.lookup hm.memo hg]
    rfl
  refine ⟨{ m' with stack := .memo k :: m'.stack }, ?_, ?_, .nothing rfl rfl rfl⟩
  · rw [pushMemo, start_bind, start_get]
    simp only [hcontains, if_true]
    rfl
  · exact { hm with stack := congrArg (.memo k :: ·) hm.stack }

theorem dup_transfers : Transfers o (dup op) := by
  apply (topSlot_transfers op).bind
  intro s
  cases s with
  | owned h => exact (chargeCopy_transfers op h.value).bind fun _ => pushSlot_transfers _
  | memo k => exact pushSlot_transfers _

/-- The bytes that an object takes are those behind its state. -/
theorem buildTop_transfers (state : Held) : Transfers o (buildTop op state) := by
  intro m u t h
  obtain ⟨hn, g, typeName, body, body', c, hg, hv, hrestore, rfl⟩ := buildTop_ok h
  obtain ⟨used, hused, hthere⟩ := Body.restore_floats typeName state.value _ _ _ hrestore
  refine ⟨used, 0, .built hused, fun m' hm haff => ?_⟩
  obtain ⟨d, hd⟩ := haff.over
  refine ⟨_, start_buildTop hn (hm.top hg) hv (hthere m'.cursor d hd), ?_, .built hd⟩
  exact Overlaid.mapTop _ { hm.mapTop _ with }

theorem stepwise_transfers : Stepwise op (Transfers o) where
  pure := .pure
  bind := .bind
  fail _ := .fail op _
  push := push_transfers op
  target := target_transfers op
  setTarget := setTarget_transfers
  topSlot := topSlot_transfers op
  popSlot := popSlot_transfers op
  popMark := popMark_transfers op
  popValue := popValue_transfers op
  popMarked := popMarked_transfers op
  popValues := popValues_transfers op
  mark :=
    .modify (fun _ => .nothing rfl rfl rfl) fun m m' hm =>
      { hm with stack := rfl, suspended := congrArg₂ (· :: ·) hm.stack hm.suspended }
  look hp hq := by
    apply Transfers.look
    · intro m m' hm
      rw [hm.stack, hm.suspended]
    · intro m
      split
      · exact hp
      · exact hq
  dup := dup_transfers op
  put := put_transfers op

/-- Carried out on a machine in the place of another, an instruction does the same,
as long as it does not count the memo entries. -/
theorem step_transfers (r : Registry) {i : Instruction}
    (hi : i = .memoize → o.Counts) :
    Transfers o (step r op i) := by
  have hp : Stepwise op (Transfers o) := stepwise_transfers op
  apply hp.step
  · exact fun k _ => pushMemo_transfers op k
  · intro hmemoize
    apply Transfers.look
    · intro m m' hm
      dsimp only
      rw [hi hmemoize hm.memo]
    · intro m
      dsimp only
      split
      · exact put_transfers op _
      · exact .fail op _
  · exact fun _ => buildTop_transfers op
  · intro _
    apply hp.call (fun _ _ => .ofExcept _)
    exact fun names => .modify (fun _ => .nothing rfl rfl rfl) fun _ _ hm =>
      { hm with reports := congrArg (· ++ names) hm.reports }

end

theorem finish_transfers : Transfers o finish := by
  intro m v t h
  obtain ⟨s, g, hsuspended, hstack, hresolve, rfl⟩ := finish_ok h
  have hvalue : Transfers o (Held.value <$> resolve .stop s) := (resolve_transfers .stop s).map _
  have hstart : (Held.value <$> resolve .stop s).start { m with stack := [] } = (.ok g.value, t) := by
    rw [start_map, hresolve]
    rfl
  apply (hvalue { m with stack := [] } _ _ hstart).restack
  intro m' hm
  exact start_finish (hm.stack.trans hstack) (hm.suspended.trans hsuspended)

theorem perform_transfers (r : Registry) (op : Opcode) {i : Instruction}
    (hi : i = .memoize → o.Counts) :
    Transfers o (perform r op i) := by
  cases i with
  | stop => exact finish_transfers.map some
  | _ => exact (step_transfers op r hi).bind fun _ => .pure none

theorem next_carried {r : Registry} {v : Option Value}
    (hi : ∀ op c, m.cursor.fetch? = some (op, .memoize, c) → o.Counts)
    (h : (next r).start m = (.ok v, t)) : Carried o (next r).start v m t := by
  obtain ⟨op, i, c, hfetch, -⟩ := next_ok h
  rw [start_next_of_fetch? hfetch] at h
  have hperform : Transfers o (perform r op i) :=
    perform_transfers r op fun heq => hi op c (heq ▸ hfetch)
  obtain ⟨used, hused, hthere⟩ := Cursor.fetch?_over hfetch
  obtain ⟨later, spent, hpaid, hthere'⟩ := hperform { m with cursor := c } v t h
  have hfetched : ∀ {m : Machine} {c : Cursor}, Cursor.Over used m.cursor c →
      Paid used 0 m { m with cursor := c } := fun hc => ⟨hc, (Nat.zero_add _).symm, rfl⟩
  refine ⟨used ++ later, 0 + spent, (hfetched hused).trans hpaid, fun m' hm haff => ?_⟩
  obtain ⟨d, hd⟩ := haff.first.over
  have hread := hfetched hd
  obtain ⟨t', hstart, ht, hpaid'⟩ := hthere' { m' with cursor := d } { hm with } (haff.rest hread)
  refine ⟨t', ?_, ht, hread.trans hpaid'⟩
  rw [start_next_of_fetch? (hthere m'.cursor d hd)]
  exact hstart

def neverMemoizes (r : Registry) : Nat → Machine → Bool
  | 0, _ => true
  | n + 1, m =>
    match m.cursor.fetch? with
    | some (_, .memoize, _) => false
    | _ =>
      match (next r).start m with
      | (.ok none, t) => neverMemoizes r n t
      | _ => true

theorem neverMemoizes_succ {r : Registry} {n : Nat} (h : m.neverMemoizes r (n + 1) = true) :
    (∀ op c, m.cursor.fetch? ≠ some (op, .memoize, c)) ∧
      ((next r).start m = (.ok none, t) → t.neverMemoizes r n = true) := by
  rw [neverMemoizes] at h
  split at h
  · cases h
  · next hne =>
    refine ⟨fun op c => hne op c, fun hnext => ?_⟩
    rwa [hnext] at h

/-- By induction on the number of instructions, of which the other machine may carry
out more: a load that succeeds is carried over. -/
theorem run_carried {r : Registry} {n n' : Nat} {v : Value} (hn : n ≤ n')
    (hcount : o.Counts ∨ m.neverMemoizes r n = true) (h : run r n m = (.ok v, t)) :
    Carried o (run r n') v m t := by
  -- the instructions of the first run are counted; those that the other may add are never reached
  induction n generalizing n' m with
  | zero => cases h
  | succ n ih =>
    obtain ⟨n', rfl⟩ : ∃ k, n' = k + 1 := Nat.exists_eq_succ_of_ne_zero (by omega)
    rw [run] at h
    rcases hnext : (next r).start m with ⟨e | w, u⟩ <;> rw [hnext] at h
    · cases h
    have hcarried : Carried o (next r).start w m u := by
      apply next_carried _ hnext
      intro op c hfetch
      exact hcount.resolve_right fun hnever => (neverMemoizes_succ (t := u) hnever).1 op c hfetch
    cases w with
    | some w =>
      cases h
      apply hcarried.imp
      intro m' t' hstart
      rw [run, hstart]
    | none =>
      have hlater : o.Counts ∨ u.neverMemoizes r n = true :=
        hcount.imp_right fun hnever => (neverMemoizes_succ hnever).2 hnext
      apply hcarried.then (ih (Nat.le_of_succ_le_succ hn) hlater h)
      intro m' t' hstart
      rw [run, hstart]

end Machine

end PickledModel
