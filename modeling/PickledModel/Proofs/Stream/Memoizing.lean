import PickledModel.Proofs.Stream.Mirroring
import PickledModel.Proofs.Stream.RoundTrip

/-! Memoizing the uppermost value in the middle of a stream, under an index that
the stream never binds. Up to there the loads are one; from there on the machines
are linked. They give the same as long as no value is changed under the new index
or under its twin, the index it had before, while the other one is referred to. A
value without an index has its new index for a twin: then what counts is that it
is not doubled and changed after that. -/

set_option autoImplicit false

namespace PickledModel

/-- What is left on the stack for a change lies on it before. -/
theorem Instruction.references_spares {k : Nat} {i : Instruction} {slots : List Slot}
    {segments : List (List Slot)}
    (h : k ∈ references (i.spares slots segments).1 (i.spares slots segments).2) :
    k ∈ references slots segments := by
  rw [mem_references, List.mem_append] at h ⊢
  cases i with
  | append | build => exact h.imp_left List.mem_of_mem_tail
  | setItem => exact h.imp_left fun h => List.mem_of_mem_tail (List.mem_of_mem_tail h)
  | appends | setItems | addItems =>
    right
    cases segments with
    | nil => simp [spares] at h
    | cons segment segments => simpa [spares] using h
  | _ => simp [spares] at h

theorem unshared_of_notMem {k : Nat} {spared : List Slot × List (List Slot)}
    (h : k ∉ references spared.1 spared.2) :
    unshared k k spared = true ∧ (spared.1.head?.bind Slot.index? == some k) = false := by
  obtain ⟨slots, segments⟩ := spared
  cases slots with
  | nil => exact ⟨rfl, rfl⟩
  | cons s slots =>
    cases s with
    | owned g => exact ⟨rfl, rfl⟩
    | memo i =>
      have hi : i ≠ k := by
        rintro rfl
        exact h (mem_references.mpr List.mem_cons_self)
      exact ⟨unshared_memo_iff.mpr ⟨fun heq => absurd heq hi, fun heq => absurd heq hi⟩,
        by simpa [Slot.index?] using hi⟩

def Instruction.mayBind (k : Nat) : Instruction → Bool
  | .memoize => true
  | .put index => index == k
  | _ => false

/-- Before the extra index is bound, nothing can bring it and its twin together. -/
theorem Instruction.keepsApart_of_notMem {k : Nat} {i : Instruction} {slots : List Slot}
    {segments : List (List Slot)} (h : k ∉ references slots segments) (hput : i ≠ .put k) :
    i.keepsApart k k false slots segments = true ∧ i.staleAfter k k false slots segments = false := by
  have hspared := unshared_of_notMem fun hk => h (i.references_spares hk)
  cases i with
  | get j => exact ⟨rfl, rfl⟩
  | put j =>
    have hj : j ≠ k := fun heq => hput (heq ▸ rfl)
    simp [keepsApart, staleAfter, hj]
  | _ => exact ⟨hspared.1, hspared.2⟩

section
variable {k twin : Nat} {g : Held} {l : Link k k false false} {right : Memo} {s s' : Slot}

def Link.bind (l : Link k k false false) (h : Binds k g l.right right) : Link k twin true false where
  left := l.left
  right := right
  fresh := l.fresh
  agree i hextra _ := (h.2 i (hextra rfl)).trans (l.agree i (fun hf => nomatch hf) fun hf => nomatch hf)

theorem Link.Pairs.bind (hs : l.Pairs s s') {h : Binds k g l.right right} :
    (l.bind h : Link k twin true false).Pairs s s' := by
  cases hs with
  | owned h => exact .owned h
  | memo hi _ hleft => exact .memo hi (fun hf => nomatch hf) hleft
  | lent hbound _ _ => cases hbound
  | twin hbound _ _ => cases hbound

end

namespace Machine
open Process

variable {r : Registry} {k twin : Nat} {tail tail' : Bytes} {shift : Nat}

def neverBinds (r : Registry) (k : Nat) : Nat → Machine → Bool
  | 0, _ => true
  | n + 1, m =>
    match m.cursor.fetch? with
    | some (_, i, _) =>
      !i.mayBind k &&
        match (next r).start m with
        | (.ok none, t) => neverBinds r k n t
        | _ => true
    | none => true

theorem neverBinds_succ {n : Nat} {m t : Machine} {op : Opcode} {i : Instruction} {c : Cursor}
    (h : m.neverBinds r k (n + 1) = true) (hfetch : m.cursor.fetch? = some (op, i, c))
    (hnext : (next r).start m = (.ok none, t)) :
    i ≠ .memoize ∧ i ≠ .put k ∧ t.neverBinds r k n = true := by
  rw [neverBinds] at h
  simp only [hfetch, hnext, Bool.and_eq_true, Bool.not_eq_true'] at h
  obtain ⟨hbind, hlater⟩ := h
  refine ⟨?_, ?_, hlater⟩
  · rintro rfl
    cases hbind
  · rintro rfl
    simp [Instruction.mayBind] at hbind

theorem neverBinds_after {n j : Nat} {m t : Machine} (h : m.neverBinds r k (n + j) = true)
    (hafter : m.after? r n = some t) : t.neverBinds r k j = true := by
  induction n generalizing m with
  | zero =>
    obtain rfl := Option.some.inj hafter
    rwa [Nat.zero_add] at h
  | succ n ih =>
    rw [Nat.add_right_comm] at h
    obtain ⟨m₁, hn, hafter⟩ := after?_succ_iff.mp hafter
    obtain ⟨op, i, c, hfetch, -⟩ := next_ok hn
    exact ih (neverBinds_succ h hfetch hn).2.2 hafter

/-- Whether the next instructions keep an index and its twin apart, which may be
stale already. -/
def apart (r : Registry) (extra twin : Nat) : Nat → Bool → Machine → Bool
  | 0, _, _ => true
  | n + 1, stale, m =>
    match m.cursor.fetch? with
    | some (_, i, _) =>
      i.keepsApart extra twin stale m.stack m.suspended &&
        match (next r).start m with
        | (.ok none, t) => apart r extra twin n (i.staleAfter extra twin stale m.stack m.suspended) t
        | _ => true
    | none => true

/-- The next instruction of linked machines. -/
theorem next_answers {extra : Nat} {bound stale : Bool} {l : Link extra twin bound stale}
    {slots : List Slot} {segments : List (List Slot)} {m m' t : Machine}
    (hm : Linked (Cursor.Facing tail tail' shift) l slots segments m m')
    (hnext : (next r).start m = (.ok none, t)) (htail : tail <:+ t.cursor.rest) :
    ∃ op i c c', m.cursor.fetch? = some (op, i, c) ∧ m'.cursor.fetch? = some (op, i, c') ∧
      (i ≠ .memoize → i ≠ .put extra → i.keepsApart extra twin stale slots segments = true →
        Meets (Tied (Cursor.Facing tail tail' shift) extra twin bound
          (i.staleAfter extra twin stale slots segments)) CopiesOut Eq none t ((next r).start m')) := by
  obtain ⟨op, i, c, hfetch, ⟨v, -, hnone, -⟩ | ⟨hstop, -, hstep⟩⟩ := next_ok hnext
  · cases hnone
  · obtain ⟨used, hused, hthere⟩ := Cursor.fetch?_over hfetch
    obtain ⟨more, hmore⟩ := step_over hstep
    have hbefore : tail <:+ c.rest := htail.trans ⟨more, hmore.rest.symm⟩
    obtain ⟨c', hused', hc⟩ := hm.cursor.over hused hbefore
    have hfetch' := hthere _ c' hused'
    refine ⟨op, i, c, c', hfetch, hfetch', fun hmemoize hput hapart => ?_⟩
    have hmoved : Linked (Cursor.Facing tail tail' shift) l slots segments { m with cursor := c }
        { m' with cursor := c' } := { hm with cursor := hc }
    have hmeets := step_answers r hmoved hstep htail hmemoize hput hapart
    rw [start_next_of_fetch? hfetch', start_perform_of_ne_stop r op hstop]
    rcases ho : (step r op i).start { m' with cursor := c' } with ⟨e | u, t'⟩ <;> rw [ho] at hmeets
    · exact hmeets
    · exact ⟨rfl, hmeets.2⟩

abbrev Alike (near : Cursor → Cursor → Prop) (k : Nat) : Machine → Machine → Prop :=
  Tied near k k false false

theorem Linked.notMem {near : Cursor → Cursor → Prop} {l : Link k twin false false}
    {slots : List Slot} {segments : List (List Slot)} {m m' : Machine}
    (hm : Linked near l slots segments m m') : k ∉ references slots segments := by
  have hne : ∀ {s s' : Slot}, l.Pairs s s' → s' ≠ .memo k := by
    intro s s' hs heq
    cases hs with
    | owned g => cases heq
    | memo hi _ _ => exact hi (Slot.memo.inj heq)
    | lent hbound _ _ => cases hbound
    | twin hbound _ _ => cases hbound
  have hside : ∀ {ss ss' : List Slot}, List.Forall₂ l.Pairs ss ss' → Slot.memo k ∉ ss' := by
    intro ss ss' hss hk
    obtain ⟨s, -, hs⟩ := forall₂_mem_right hss hk
    exact hne hs rfl
  rw [mem_references, List.mem_append, List.mem_flatten]
  rintro (hk | ⟨segment, hsegment, hk⟩)
  · exact hside hm.stack hk
  · obtain ⟨segment', -, hs⟩ := forall₂_mem_right hm.suspended hsegment
    exact hside hs hk

/-- Alike machines stay so up to any point that the first one reaches before the
tail, or the second one stops at its copy limit. -/
theorem Alike.after? {n j : Nat} {m m' t : Machine}
    (h : Alike (Cursor.Facing tail tail' shift) k m m') (hfree : m.neverBinds r k (n + j) = true)
    (hafter : m.after? r n = some t) (htail : tail <:+ t.cursor.rest) :
    (∃ t', m'.after? r n = some t' ∧ Alike (Cursor.Facing tail tail' shift) k t t') ∨
      ∃ e t', CopiesOut e ∧ ∀ left, run r (n + left) m' = (.error e, t') := by
  induction n generalizing m m' with
  | zero =>
    obtain rfl := Option.some.inj hafter
    exact .inl ⟨m', rfl, h⟩
  | succ n ih =>
    obtain ⟨m₁, hn, hafter⟩ := after?_succ_iff.mp hafter
    obtain ⟨used, hused⟩ := after?_over hafter
    obtain ⟨l, slots, segments, hm⟩ := h
    obtain ⟨op, i, c, c', hfetch, -, hanswers⟩ :=
      next_answers hm hn (htail.trans ⟨used, hused.rest.symm⟩)
    rw [Nat.add_right_comm] at hfree
    obtain ⟨hmemoize, hput, hlater⟩ := neverBinds_succ hfree hfetch hn
    obtain ⟨hapart, hstale⟩ := i.keepsApart_of_notMem hm.notMem hput
    have hmeets := hanswers hmemoize hput hapart
    rw [hstale] at hmeets
    rcases ho : (next r).start m' with ⟨e | o, m₁'⟩ <;> rw [ho] at hmeets
    · refine .inr ⟨e, m₁', hmeets, fun left => ?_⟩
      rw [Nat.add_right_comm, run, ho]
    · obtain ⟨rfl, h₁⟩ := hmeets
      obtain ⟨t', ht', h'⟩ | ⟨e, t', he, hrun⟩ := ih h₁ hlater hafter
      · exact .inl ⟨t', after?_succ_iff.mpr ⟨m₁', ho, ht'⟩, h'⟩
      · refine .inr ⟨e, t', he, fun left => ?_⟩
        rw [Nat.add_right_comm, run, ho]
        exact hrun left

def Ended (shift : Nat) (t t' : Machine) : Prop :=
  t'.cursor.position = t.cursor.position + shift ∧ t.reports = t'.reports

/-- Linked machines end alike. -/
theorem next_ends {extra : Nat} {bound stale : Bool} {l : Link extra twin bound stale}
    {slots : List Slot} {segments : List (List Slot)} {m m' t : Machine} {v : Value}
    (hm : Linked (Cursor.Facing [] [] shift) l slots segments m m')
    (hnext : (next r).start m = (.ok (some v), t)) :
    Meets (Ended shift) CopiesOut Eq (some v) t ((next r).start m') := by
  obtain ⟨op, i, c, hfetch, ⟨w, rfl, hv, hfinish⟩ | ⟨-, hv, -⟩⟩ := next_ok hnext
  · cases hv
    obtain ⟨used, hused, hthere⟩ := Cursor.fetch?_over hfetch
    obtain ⟨c', hused', hc⟩ := hm.cursor.over hused List.nil_suffix
    have hmoved : Linked (Cursor.Facing [] [] shift) l slots segments { m with cursor := c }
        { m' with cursor := c' } := { hm with cursor := hc }
    have hmeets := finish_mirrors _ _ hmoved v t hfinish
    rw [start_next_of_fetch? (hthere _ c' hused'), perform, start_map]
    rcases ho : finish.start { m' with cursor := c' } with ⟨e | w, t'⟩ <;> rw [ho] at hmeets
    · exact hmeets
    · obtain ⟨rfl, ⟨ahead, -, -, hposition⟩, hreports⟩ := hmeets
      exact ⟨rfl, hposition, hreports⟩
  · cases hv

/-- Linked machines give the same value as long as the index and its twin are kept apart. -/
theorem Tied.run {stale : Bool} {n fuel : Nat} {m m' t : Machine} {v : Value}
    (h : Tied (Cursor.Facing [] [] shift) k twin true stale m m')
    (hfree : m.neverBinds r k n = true)
    (hapart : m'.apart r k twin fuel stale = true) (hfuel : n ≤ fuel)
    (hrun : Machine.run r n m = (.ok v, t)) (j : Nat) :
    Meets (Ended shift) CopiesOut Eq v t (Machine.run r (n + j) m') := by
  induction n generalizing m m' stale fuel with
  | zero =>
    rw [Machine.run] at hrun
    cases hrun
  | succ n ih =>
    obtain ⟨left, rfl⟩ := Nat.exists_eq_add_of_le hfuel
    rw [Nat.add_right_comm, Machine.apart] at hapart
    rw [Machine.run] at hrun
    rw [Nat.add_right_comm, Machine.run]
    obtain ⟨l, slots, segments, hm⟩ := h
    rcases hn : (next r).start m with ⟨_ | _ | w, m₁⟩ <;> rw [hn] at hrun
    · cases hrun
    · obtain ⟨op, i, c, c', hfetch, hfetch', hanswers⟩ := next_answers hm hn List.nil_suffix
      obtain ⟨hmemoize, hput, hfree'⟩ := neverBinds_succ hfree hfetch hn
      simp only [hfetch', hm.top, hm.below, Bool.and_eq_true] at hapart
      obtain ⟨hkeeps, hlater⟩ := hapart
      have hmeets := hanswers hmemoize hput hkeeps
      rcases ho : (next r).start m' with ⟨e | o, m₁'⟩ <;> rw [ho] at hmeets hlater
      · exact hmeets
      · obtain ⟨rfl, h₁⟩ := hmeets
        exact ih h₁ hfree' hlater (Nat.le_add_right n left) hrun
    · cases hrun
      have hmeets := next_ends hm hn
      rcases ho : (next r).start m' with ⟨e | o, m₁'⟩ <;> rw [ho] at hmeets
      · exact hmeets
      · obtain ⟨rfl, hended⟩ := hmeets
        exact ⟨rfl, hended⟩

theorem start_longBinPut {p : Nat} {rest : Bytes} (hk : k < 2 ^ 32) :
    (Fetch.instruction p .longBinPut).start ⟨p + 1, Word.digits 4 k ++ rest⟩ =
      (.ok (.put k), ⟨p + 1 + 4, rest⟩) := by
  have hword : Cursor.u32 ⟨p + 1, Word.digits 4 k ++ rest⟩ =
      .ok (UInt32.ofNat k, ⟨p + 1 + 4, rest⟩) := by
    rw [Cursor.u32]
    simp only [Functor.map, StateT.map, Cursor.word_digits (p + 1) 4 k rest hk]
    rfl
  rw [Fetch.instruction, start_bind, start_read_ok hword]
  have hvalue : (UInt32.ofNat k).toNat = k := by
    rw [UInt32.toNat_ofNat', Nat.mod_eq_of_lt hk]
  dsimp only
  rw [hvalue]
  rfl

def memoizedAt (k position : Nat) (data : Bytes) : Bytes :=
  data.take position ++ Opcode.longBinPut.code :: (Word.digits 4 k ++ data.drop position)

/-- Memoizing the uppermost value links the machines. -/
theorem Alike.memoize {m m' : Machine} {s : Slot} {rest : List Slot}
    (h : Alike (Cursor.Facing m.cursor.rest
      (Opcode.longBinPut.code :: (Word.digits 4 k ++ m.cursor.rest)) 0) k m m')
    (hs : m.stack = s :: rest) (hk : k < 2 ^ 32) :
    Meets (Tied (Cursor.Facing [] [] 5) k (s.index?.getD k) true false) CopiesOut Eq none m
      ((next r).start m') := by
  obtain ⟨l, slots, segments, hm⟩ := h
  obtain ⟨ahead, hahead, hrest, hposition⟩ := hm.cursor
  obtain rfl : ahead = [] := List.self_eq_append_left.mp hahead
  have hpairs := hm.stack
  rw [hs] at hpairs
  obtain ⟨s', rest', hpair, hrests, rfl⟩ := List.forall₂_cons_left_iff.mp hpairs
  obtain ⟨g, hleft, hg⟩ := hm.held hpair
  have hself : m' = m'.facing m'.cursor.position
      (Opcode.longBinPut.code :: (Word.digits 4 k ++ m.cursor.rest)) := by
    rw [facing, ← List.nil_append (_ :: _), ← hrest]
  rw [hself, start_next m' (start_longBinPut hk) (by simp)]
  obtain ⟨memo, allowance, hmemo, hok⟩ | ⟨e, t', herror, he⟩ := @start_put_held .longBinPut
    (m'.facing (m'.cursor.position + 1 + 4) m.cursor.rest) k s' rest' g hm.top hg
  · have hstep : (step r .longBinPut (.put k)).start
        (m'.facing (m'.cursor.position + 1 + 4) m.cursor.rest) = _ := hok
    rw [hstep]
    have hcursor : Cursor.Facing [] [] 5 m.cursor
        ⟨m'.cursor.position + 1 + 4, m.cursor.rest⟩ := by
      refine ⟨m.cursor.rest, (List.append_nil _).symm, (List.append_nil _).symm, ?_⟩
      rw [hposition]
    have hmemo' : Binds k g l.right memo := hm.right ▸ hmemo
    let l' : Link k (s.index?.getD k) true false := l.bind hmemo'
    have hothers := Link.relink l' hrests hm.suspended fun _ _ _ hp => hp.bind
    have htop : l'.Pairs s (.memo k) := by
      cases hpair with
      | owned h => exact .lent rfl rfl (Option.some.inj hleft ▸ hmemo'.1)
      | memo _ _ _ => exact .twin rfl (hm.left ▸ hleft) hmemo'.1
      | lent hbound _ _ => cases hbound
      | twin hbound _ _ => cases hbound
    refine ⟨rfl, l', .memo k :: rest', segments, hcursor, hm.left, rfl, rfl, hm.below, ?_,
      hothers.2, hm.reports⟩
    rw [hs]
    exact .cons htop hothers.1
  · have hstep : (step r .longBinPut (.put k)).start
        (m'.facing (m'.cursor.position + 1 + 4) m.cursor.rest) = _ := herror
    rw [hstep]
    exact he

theorem memoizedAt_append (used rest : Bytes) :
    memoizedAt k used.length (used ++ rest) =
      used ++ Opcode.longBinPut.code :: (Word.digits 4 k ++ rest) := by
  rw [memoizedAt, List.take_left, List.drop_left]

theorem memoizedAt_length (k position : Nat) (data : Bytes) :
    (memoizedAt k position data).length = data.length + 5 := by
  have hsplit := congrArg List.length (List.take_append_drop position data)
  simp only [memoizedAt, List.length_append, List.length_cons, Word.digits_length] at hsplit ⊢
  omega

/-- A load that succeeds goes on from every point that it reaches. -/
theorem run_ok_after? {n size : Nat} {m t u : Machine} {v : Value} (hafter : m.after? r n = some t)
    (hrun : Machine.run r size m = (.ok v, u)) :
    ∃ left, size = n + left ∧ Machine.run r left t = (.ok v, u) := by
  induction n generalizing m size with
  | zero =>
    obtain rfl := Option.some.inj hafter
    exact ⟨size, (Nat.zero_add size).symm, hrun⟩
  | succ n ih =>
    cases size with
    | zero => cases hrun
    | succ size =>
      obtain ⟨m₁, hn, hafter⟩ := after?_succ_iff.mp hafter
      rw [Machine.run, hn] at hrun
      obtain ⟨left, rfl, hleft⟩ := ih hafter hrun
      exact ⟨left, Nat.add_right_comm n left 1, hleft⟩

/-- Memoizing is transparent while the values are kept apart. Let a stream load
whose instructions never bind the index `k`, nor an index of their own choice. With
the uppermost value memoized under `k` at any point that the load reaches, it gives
the same value and the same diagnostics, as long as no value is changed or bound
under `k` or the index that the value had before while another slot refers to the
other one, and that index is not fetched once the value has changed under `k`. Only
the copies may then be too many. -/
theorem load_memoized {data : Bytes} {v : Value} {n : Nat} {m t : Machine} {s : Slot}
    {rest : List Slot} (hload : (ofBytes data).load r = (.ok v, t))
    (hfree : (ofBytes data).neverBinds r k data.length = true) (hk : k < 2 ^ 32)
    (hm : (ofBytes data).after? r n = some m) (hs : m.stack = s :: rest)
    (hapart : ((ofBytes (memoizedAt k m.cursor.position data)).after? r (n + 1)).all fun m' =>
      m'.apart r k (s.index?.getD k) data.length false) :
    (∃ t', (ofBytes (memoizedAt k m.cursor.position data)).load r = (.ok v, t') ∧
      t'.diagnostics = t.diagnostics ∧ t'.cursor.position = t.cursor.position + 5) ∨
    ∃ e t', (ofBytes (memoizedAt k m.cursor.position data)).load r = (.error e, t') ∧
      CopiesOut e := by
  obtain ⟨used, hused⟩ := after?_over hm
  have hdata : data = used ++ m.cursor.rest := hused.rest
  have hposition : m.cursor.position = used.length := hused.position.trans (Nat.zero_add _)
  obtain ⟨left, hsize, hleft⟩ := run_ok_after? hm hload
  replace hsize : data.length = n + left := hsize
  have hfree' : (ofBytes data).neverBinds r k (n + left) = true := hsize ▸ hfree
  have hlength : (memoizedAt k m.cursor.position data).length = n + (left + 5) := by
    rw [memoizedAt_length, hsize, Nat.add_assoc]
  have hload' : (ofBytes (memoizedAt k m.cursor.position data)).load r =
      Machine.run r (n + (left + 5)) (ofBytes (memoizedAt k m.cursor.position data)) :=
    hlength ▸ rfl
  have hbytes : memoizedAt k m.cursor.position data =
      used ++ Opcode.longBinPut.code :: (Word.digits 4 k ++ m.cursor.rest) := by
    rw [hposition, hdata, memoizedAt_append]
  have hstart : Alike (Cursor.Facing m.cursor.rest
      (Opcode.longBinPut.code :: (Word.digits 4 k ++ m.cursor.rest)) 0) k (ofBytes data)
      (ofBytes (memoizedAt k m.cursor.position data)) :=
    ⟨⟨∅, ∅, rfl, fun _ _ _ => rfl⟩, [], [],
      ⟨⟨used, hdata, hbytes, rfl⟩, rfl, rfl, rfl, rfl, .nil, .nil, rfl⟩⟩
  rw [hload']
  -- up to the new instruction the machines are alike, with it they become tied, and tied they end
  obtain ⟨t', hafter, halike⟩ | ⟨e, t', he, hrun⟩ := hstart.after? hfree' hm (List.suffix_refl _)
  · have hmemoized := halike.memoize (r := r) hs hk
    rw [run_of_after? hafter, ← Nat.add_assoc left 4 1, Machine.run]
    rcases ho : (next r).start t' with ⟨e | o, u⟩ <;> rw [ho] at hmemoized
    · exact .inr ⟨e, u, rfl, hmemoized⟩
    · obtain ⟨rfl, htied⟩ := hmemoized
      have hnext : (ofBytes (memoizedAt k m.cursor.position data)).after? r (n + 1) = some u := by
        rw [after?_add hafter, Machine.after?, ho]
        rfl
      rw [hnext] at hapart
      have hfuel : left ≤ data.length := by omega
      have hends := htied.run (neverBinds_after hfree' hm) hapart hfuel hleft 4
      dsimp only
      rcases hrun : Machine.run r (left + 4) u with ⟨e | w, t'⟩ <;> rw [hrun] at hends
      · exact .inr ⟨e, t', rfl, hends⟩
      · obtain ⟨rfl, hend, hreports⟩ := hends
        exact .inl ⟨t', rfl, by rw [diagnostics, diagnostics, hreports], hend⟩
  · exact .inr ⟨e, t', hrun _, he⟩

namespace MemoizedTwice

/-- A list that is memoized, and then appended to. -/
def stream : Bytes := [0x5d, 0x71, 0x00, 0x4e, 0x61, 0x2e]

def reached : Machine :=
  { ofBytes stream with
    cursor := ⟨3, [0x4e, 0x61, 0x2e]⟩
    stack := [.memo 0]
    memo := (∅ : Memo).insert 0 ⟨.list [], 1⟩ }

def loaded : Machine := ((ofBytes stream).load .empty).2

theorem load_value : (ofBytes stream).load .empty = (.ok (.list [.none]), loaded) :=
  Prod.ext (by cbv) rfl

end MemoizedTwice

theorem load_memoized_twice :
    (∃ t', (ofBytes (memoizedAt 7 3 MemoizedTwice.stream)).load .empty =
        (.ok (.list [.none]), t') ∧
      t'.diagnostics = MemoizedTwice.loaded.diagnostics ∧
      t'.cursor.position = MemoizedTwice.loaded.cursor.position + 5) ∨
    ∃ e t', (ofBytes (memoizedAt 7 3 MemoizedTwice.stream)).load .empty = (.error e, t') ∧
      CopiesOut e := by
  have hreached : (ofBytes MemoizedTwice.stream).after? .empty 2 = some MemoizedTwice.reached := by
    cbv
  exact load_memoized MemoizedTwice.load_value (by cbv) (by decide) hreached rfl (by cbv)

/-- An empty list, doubled before one of the two is appended to. -/
def Doubled.stream : Bytes := [0x5d, 0x32, 0x4e, 0x61, 0x86, 0x2e]

/-- What is doubled is one value if it is memoized, and two if it is not. -/
theorem memoizing_changes_doubled_list :
    (ofBytes Doubled.stream).neverBinds .empty 7 Doubled.stream.length = true ∧
    (∃ m s, (ofBytes Doubled.stream).after? .empty 1 = some m ∧ m.cursor.position = 1 ∧
      m.stack = [s]) ∧
    ((ofBytes Doubled.stream).load .empty).1 = .ok (.tuple [.list [], .list [.none]]) ∧
    ((ofBytes (memoizedAt 7 1 Doubled.stream)).load .empty).1 =
      .ok (.tuple [.list [.none], .list [.none]]) ∧
    Value.tuple [.list [], .list [.none]] ≠ .tuple [.list [.none], .list [.none]] := by
  refine ⟨by cbv, ?_, by cbv, by cbv, by simp⟩
  have hreached : (ofBytes Doubled.stream).after? .empty 1 = some
      { ofBytes Doubled.stream with
        cursor := ⟨1, [0x32, 0x4e, 0x61, 0x86, 0x2e]⟩
        stack := [.owned ⟨.list [], 1⟩] } := by
    cbv
  exact ⟨_, _, hreached, rfl, rfl⟩

end Machine

end PickledModel
