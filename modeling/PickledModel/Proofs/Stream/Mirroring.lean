import PickledModel.Proofs.Stream.Consumption
import PickledModel.Proofs.Stream.Linked

/-! A step in linked machines. The values of an index and of its twin may change
as long as no slot refers to the other one; the twin is stale after a change under
the extra index, until it is bound again. -/

set_option autoImplicit false

namespace PickledModel

/-- What an instruction leaves on the stack before it changes a value in place,
the slot of that value first. -/
def Instruction.spares (slots : List Slot) (segments : List (List Slot)) :
    Instruction → List Slot × List (List Slot)
  | .append | .build => (slots.tail, segments)
  | .setItem => (slots.tail.tail, segments)
  | .appends | .setItems | .addItems => (segments.headD [], segments.tail)
  | _ => ([], [])

def unshared (extra twin : Nat) (spared : List Slot × List (List Slot)) : Bool :=
  let others := references spared.1.tail spared.2
  match spared.1.head?.bind Slot.index? with
  | some index => (index != extra || !others.contains twin) && (index != twin || !others.contains extra)
  | none => true

theorem unshared_memo_iff {extra twin i : Nat} {slots : List Slot} {segments : List (List Slot)} :
    unshared extra twin (.memo i :: slots, segments) = true ↔
      (i = extra → twin ∉ references slots segments) ∧
        (i = twin → extra ∉ references slots segments) := by
  simp [unshared, Slot.index?, imp_iff_not_or]

/-- Whether an instruction leaves an extra index and its twin apart: it changes or
binds neither of them while another slot refers to the other one, and it does not
fetch the twin once that is stale. -/
def Instruction.keepsApart (extra twin : Nat) (stale : Bool) (slots : List Slot)
    (segments : List (List Slot)) : Instruction → Bool
  | .get index => !(stale && index == twin)
  | .put index => index != twin || !(references slots.tail segments).contains extra
  | i => unshared extra twin (i.spares slots segments)

/-- The twin becomes stale if a value is changed under the extra index, until it
is bound again. -/
def Instruction.staleAfter (extra twin : Nat) (stale : Bool) (slots : List Slot)
    (segments : List (List Slot)) : Instruction → Bool
  | .put index => stale && index != twin
  | i => stale || (i.spares slots segments).1.head?.bind Slot.index? == some extra

namespace Machine
open Process

variable {near : Cursor → Cursor → Prop} {extra twin : Nat} {bound stale : Bool}
  {l : Link extra twin bound stale} {slots : List Slot} {segments : List (List Slot)} {op : Opcode}

def Exposed (near : Cursor → Cursor → Prop) (extra twin : Nat) (bound stale : Bool)
    (m m' : Machine) : Prop :=
  ∃ (l : Link extra twin bound stale) (slots : List Slot) (segments : List (List Slot)),
    Linked near l slots segments m m' ∧
    (slots.head? = some (.memo extra) →
      (twin = extra ∨ stale = true) ∧ twin ∉ references slots.tail segments) ∧
    (slots.head? = some (.memo twin) → extra ∉ references slots.tail segments)

theorem Exposed.tied {m m' : Machine} (h : Exposed near extra twin bound stale m m') :
    Tied near extra twin bound stale m m' := by
  obtain ⟨l, slots, segments, hm, -, -⟩ := h
  exact ⟨l, slots, segments, hm⟩

/-- A value that changes under the extra index makes the twin stale. -/
theorem Linked.exposed {m m' : Machine} (hm : Linked near l slots segments m m')
    (h : unshared extra twin (slots, segments) = true) :
    Exposed near extra twin bound (stale || slots.head?.bind Slot.index? == some extra) m m' := by
  cases slots with
  | nil =>
    rw [List.head?_nil, Option.bind_none, beq_eq_false_iff_ne.mpr (by simp), Bool.or_false]
    exact ⟨l, [], segments, hm, by simp, by simp⟩
  | cons s slots =>
    cases s with
    | owned g =>
      have hst : (stale || (Slot.owned g).index? == some extra) = stale := by simp [Slot.index?]
      rw [List.head?_cons, Option.bind_some, hst]
      exact ⟨l, _, segments, hm, by simp, by simp⟩
    | memo i =>
      obtain ⟨hextra, htwin⟩ := unshared_memo_iff.mp h
      have htop : ∀ k, (Slot.memo i :: slots).head? = some (.memo k) → i = k :=
        fun k hk => Slot.memo.inj (Option.some.inj hk)
      rw [List.head?_cons, Option.bind_some, Slot.index?]
      by_cases hi : i = extra
      · have hpairs := Link.relink l.age hm.stack hm.suspended fun s s' hs' hs => by
          apply hs.age
          rw [List.cons_append, List.mem_cons] at hs'
          rcases hs' with rfl | hs'
          · exact .inl (hi ▸ rfl)
          · right
            rintro rfl
            exact hextra hi (mem_references.mpr hs')
        have hst : (stale || some i == some extra) = true := by simp [hi]
        rw [hst]
        exact ⟨l.age, _, segments, ⟨hm.cursor, hm.left, hm.right, hm.top, hm.below, hpairs.1,
          hpairs.2, hm.reports⟩, fun hk => ⟨.inr rfl, hextra (htop _ hk)⟩, fun hk => htwin (htop _ hk)⟩
      · have hst : (stale || some i == some extra) = stale := by simpa using fun h => absurd h hi
        rw [hst]
        exact ⟨l, _, segments, hm, fun hk => absurd (htop _ hk) hi, fun hk => htwin (htop _ hk)⟩

theorem mapTop_bound (f : Held → Held) {m : Machine} {k : Nat} {stack : List Slot} {h : Held}
    (hs : m.stack = .memo k :: stack) (hk : m.memo[k]? = some h) :
    m.mapTop f = { m with memo := m.memo.insert k (f h) } := by
  obtain ⟨g, hg, hmap⟩ | ⟨hg, -⟩ := mapTop_memo f hs
  · obtain rfl := Option.some.inj (hk.symm.trans hg)
    exact hmap
  · rw [hk] at hg
    cases hg

/-- A value of one index other than the extra one changes in both memos. -/
theorem Linked.mapTop_same {m m' : Machine} {i : Nat} {g : Held} {left : List Slot}
    (hm : Linked near l (.memo i :: slots) segments m m') (hstack : m.stack = .memo i :: left)
    (hi : i ≠ extra) (hstale : stale = true → i ≠ twin) (hleft : l.left[i]? = some g)
    (htwin : i = twin → extra ∉ references slots segments) (f : Held → Held) :
    Exposed near extra twin bound stale (m.mapTop f) (m'.mapTop f) := by
  have hright : l.right[i]? = some g := (l.agree i (fun _ => hi) hstale).trans hleft
  let l' := l.rebind hi (getElem?_bound l.left i (f g)) (getElem?_bound l.right i (f g))
  have hpairs := Link.relink l' hm.stack hm.suspended fun s s' hs' hs => by
    apply hs.rebind
    rintro heq rfl
    rw [List.cons_append, List.mem_cons] at hs'
    rcases hs' with htop | hs'
    · exact hi (Slot.memo.inj htop).symm
    · exact htwin heq (mem_references.mpr hs')
  have hst : (stale && i != twin) = stale := by
    cases stale with
    | false => rfl
    | true => simpa using hstale rfl
  rw [mapTop_bound f hstack (hm.left ▸ hleft), mapTop_bound f hm.top (hm.right ▸ hright), ← hst]
  refine ⟨l', _, segments, ⟨hm.cursor, by rw [hm.left]; rfl, by rw [hm.right]; rfl, hm.top, hm.below,
    hpairs.1, hpairs.2, hm.reports⟩, fun htop => ?_, fun htop => ?_⟩
  · exact absurd (Slot.memo.inj (Option.some.inj htop)) hi
  · exact htwin (Slot.memo.inj (Option.some.inj htop))

/-- A value that a slot owns in the first machine alone changes there and under
the extra index. -/
theorem Linked.mapTop_lent {m m' : Machine} {g : Held} {left : List Slot}
    (hm : Linked near l (.memo extra :: slots) segments m m') (hstack : m.stack = .owned g :: left)
    (hrest : List.Forall₂ l.Pairs left slots) (hbound : bound = true) (htwin : twin = extra)
    (hright : l.right[extra]? = some g) (hothers : extra ∉ references slots segments)
    (f : Held → Held) :
    Exposed near extra twin bound stale (m.mapTop f) (m'.mapTop f) := by
  have hvalue := getElem?_bound l.right extra (f g)
  let l' := l.change ⟨hbound, .inl htwin⟩ l.fresh (fun _ _ => rfl) hvalue.2
  have hpairs := Link.relink l' hrest hm.suspended fun s s' hs' hs => by
    apply hs.change _ (fun hne => absurd htwin hne) hvalue.1
    rintro - rfl
    exact hothers (mem_references.mpr hs')
  rw [mapTop_owned f hstack, mapTop_bound f hm.top (hm.right ▸ hright)]
  exact ⟨l', _, segments, ⟨hm.cursor, hm.left, by rw [hm.right]; rfl, hm.top, hm.below,
    .cons (.lent hbound htwin hvalue.1) hpairs.1, hpairs.2, hm.reports⟩,
    fun _ => ⟨.inl htwin, htwin ▸ hothers⟩, fun _ => hothers⟩

/-- A value changes under the extra index and under its twin, which is stale. -/
theorem Linked.mapTop_twin {m m' : Machine} {g : Held} {left : List Slot}
    (hm : Linked near l (.memo extra :: slots) segments m m') (hstack : m.stack = .memo twin :: left)
    (hbound : bound = true) (hstale : stale = true) (hleft : l.left[twin]? = some g)
    (hright : l.right[extra]? = some g) (hothers : twin ∉ references slots segments)
    (f : Held → Held) :
    Exposed near extra twin bound stale (m.mapTop f) (m'.mapTop f) := by
  have hne := l.twin_ne hleft
  have hold := getElem?_bound l.left twin (f g)
  have hnew := getElem?_bound l.right extra (f g)
  have hfresh := (hold.2 extra hne.symm).trans l.fresh
  let l' := l.change ⟨hbound, .inr hstale⟩ hfresh hold.2 hnew.2
  have hpairs := Link.relink l' hm.stack hm.suspended fun s s' _ hs =>
    hs.change (fun heq => absurd heq hne) (fun _ => hold.1) hnew.1
  rw [mapTop_bound f hstack (hm.left ▸ hleft), mapTop_bound f hm.top (hm.right ▸ hright)]
  exact ⟨l', _, segments, ⟨hm.cursor, by rw [hm.left]; rfl, by rw [hm.right]; rfl, hm.top, hm.below,
    hpairs.1, hpairs.2, hm.reports⟩, fun _ => ⟨.inr hstale, hothers⟩,
    fun htop => absurd (Slot.memo.inj (Option.some.inj htop)).symm hne⟩

/-- Linked machines stay linked when their uppermost value is changed alike. -/
theorem Exposed.mapTop {m m' : Machine} (h : Exposed near extra twin bound stale m m')
    (f : Held → Held) : Exposed near extra twin bound stale (m.mapTop f) (m'.mapTop f) := by
  obtain ⟨l, slots, segments, hm, hextra, htwin⟩ := h
  have hpairs := hm.stack
  generalize hstack : m.stack = left at hpairs
  cases hpairs with
  | nil =>
    rw [mapTop_nil f hstack, mapTop_nil f hm.top]
    exact ⟨l, [], segments, hm, hextra, htwin⟩
  | cons hs hrest =>
    cases hs with
    | owned g =>
      rw [mapTop_owned f hstack, mapTop_owned f hm.top]
      exact ⟨l, _, segments, { hm with top := rfl, stack := .cons (.owned _) hrest }, by simp,
        by simp⟩
    | memo hi hstale hleft =>
      exact hm.mapTop_same hstack hi hstale hleft (fun heq => htwin (heq ▸ rfl)) f
    | lent hbound heq hright =>
      exact hm.mapTop_lent hstack hrest hbound heq hright (htwin (heq ▸ rfl)) f
    | twin hbound hleft hright =>
      obtain ⟨hstale, hothers⟩ := hextra rfl
      exact hm.mapTop_twin hstack hbound (hstale.resolve_left (l.twin_ne hleft)) hleft hright hothers f

theorem Exposed.top {m m' : Machine} (h : Exposed near extra twin bound stale m m') :
    m'.top? = m.top? := by
  obtain ⟨l, slots, segments, hm, -, -⟩ := h
  have hpairs := hm.stack
  rw [top?, top?, hm.top]
  generalize m.stack = left at hpairs
  cases hpairs with
  | nil => rfl
  | cons hs _ =>
    obtain ⟨h, hleft, hright⟩ := hm.held hs
    exact hright.trans hleft.symm

abbrev Edits {α : Type} (near : Cursor → Cursor → Prop) (extra twin : Nat) (bound stale : Bool)
    (p p' : Process Machine α) : Prop :=
  Follows (Exposed near extra twin bound stale) (Exposed near extra twin bound stale) CopiesOut p p'
    Eq

theorem target_edits (n : Nat) : Edits near extra twin bound stale (target op n) (target op n) := by
  intro m m' hm v t h
  obtain ⟨hn, rfl, g, hg, rfl⟩ := target_ok h
  rw [start_target_top hn (hm.top.trans hg)]
  exact ⟨rfl, hm.mapTop _⟩

theorem setTarget_edits (v : Value) :
    Edits near extra twin bound stale (setTarget v) (setTarget v) := by
  intro m m' hm u t h
  rw [setTarget, start_modifyTop] at h ⊢
  cases h
  exact ⟨rfl, hm.mapTop _⟩

theorem editing_edits (op : Opcode) :
    Editing op fun p => Edits near extra twin bound stale p p where
  bind hp hf := by
    apply hp.bind
    rintro a _ rfl
    exact hf a
  fail _ := fail_mirrors _ _
  target := target_edits
  setTarget := setTarget_edits

/-- An edit of what is left on the stack. -/
theorem Edits.mirrors {p p' : Process Machine Unit}
    (h : ∀ stale, Edits near extra twin bound stale p p')
    (hapart : unshared extra twin (slots, segments) = true) :
    Follows (Linked near l slots segments)
      (Tied near extra twin bound (stale || slots.head?.bind Slot.index? == some extra)) CopiesOut
      p p' fun _ _ => True :=
  ((h _).before fun _ _ hm => hm.exposed hapart).weaken (fun _ _ _ => trivial)
    fun _ _ hm => hm.tied

/-- What a slot holds can be bound to an index, or the copy is refused. -/
theorem start_put_held (op : Opcode) {m : Machine} {k : Nat} {s : Slot} {rest : List Slot} {g : Held}
    (hs : m.stack = s :: rest) (hg : m.held? s = some g) :
    (∃ memo allowance, Binds k g m.memo memo ∧
      (put op k).start m = (.ok (), { m with stack := .memo k :: rest, memo, allowance })) ∨
    ∃ e t, (put op k).start m = (.error e, t) ∧ CopiesOut e := by
  cases s with
  | owned h =>
    obtain rfl := Option.some.inj hg
    exact .inl ⟨_, m.allowance, getElem?_bound _ _ _, start_put_owned hs⟩
  | memo source =>
    have hsource : m.memo[source]? = some g := hg
    rw [put, start_bind, start_popSlot op _ _ m hs]
    by_cases hk : source = k
    · subst hk
      simp only [if_true]
      exact .inl ⟨m.memo, m.allowance, ⟨hsource, fun _ _ => rfl⟩, rfl⟩
    · simp only [hk, if_false, start_bind, copyMemo, chargeCopy, start_get, hsource]
      cases g.value.footprint? m.allowance with
      | some cost => exact .inl ⟨_, _, getElem?_bound _ _ _, rfl⟩
      | none => exact .inr ⟨_, _, rfl, _, _, _, rfl⟩

/-- Bound to the value of the uppermost slot, the twin is as good as new. -/
theorem put_mirrors {k : Nat} (hk : k ≠ extra)
    (hapart : k = twin → extra ∉ references slots.tail segments) :
    Follows (Linked near l slots segments) (Tied near extra twin bound (stale && k != twin)) CopiesOut
      (put op k) (put op k) fun _ _ => True := by
  intro m m' hm u t h
  have hpairs := hm.stack
  generalize hstack : m.stack = left at hpairs
  cases hpairs with
  | nil =>
    rw [start_put_nil hstack] at h
    cases h
  | cons hs hrest =>
    obtain ⟨g, hg, hg'⟩ := hm.held hs
    obtain ⟨memo, allowance, hmemo, hok⟩ | ⟨e, t', herror, -⟩ := start_put_held op hstack hg
    · rw [hok] at h
      cases h
      obtain ⟨memo', allowance', hmemo', hok'⟩ | ⟨e, t', herror, he⟩ :=
        start_put_held op hm.top hg'
      · rw [hm.left] at hmemo
        rw [hm.right] at hmemo'
        let l' := l.rebind hk hmemo hmemo'
        have hpairs := Link.relink l' hrest hm.suspended fun s s' hs' hs => by
          apply hs.rebind
          rintro heq rfl
          exact hapart heq (mem_references.mpr hs')
        have hfetched : l'.Pairs (.memo k) (.memo k) :=
          .memo hk (fun hst => bne_iff_ne.mp (Bool.and_eq_true_iff.mp hst).2) hmemo.1
        rw [hok']
        exact ⟨trivial, l', _, segments, ⟨hm.cursor, rfl, rfl, rfl, hm.below,
          .cons hfetched hpairs.1, hpairs.2, hm.reports⟩⟩
      · rw [herror]
        exact he
    · rw [herror] at h
      cases h

variable {i : Instruction}

theorem make_mirrors (r : Registry) (h : i.makes = true) :
    Follows (Linked near l slots segments) (Tied near extra twin bound stale) CopiesOut
      (step r op i) (step r op i) fun _ _ => True := by
  cases i with
  | tuple size =>
    apply (popValues_mirrors size).bind
    rintro g _ rfl
    exact (push_mirrors _ _).tied
  | gather kind =>
    apply popMarked_mirrors.bind
    rintro g _ rfl
    exact (push_mirrors _ _).tied
  | gatherDict =>
    apply popMarked_mirrors.bind
    rintro g _ rfl
    apply (pairs_mirrors _).bind
    rintro entries _ rfl
    exact (push_mirrors _ _).tied
  | stackGlobal =>
    apply popValue_mirrors.bind
    rintro name _ rfl
    apply popValue_mirrors.bind
    rintro module_ _ rfl
    split
    · exact (push_mirrors _ _).tied
    · exact fail_mirrors _ _
  | _ => cases h

theorem invoke_mirrors (r : Registry) (h : i.calls = true) :
    Follows (Linked near l slots segments) (Tied near extra twin bound stale) CopiesOut
      (step r op i) (step r op i) fun _ _ => True := by
  cases i with
  | call =>
    apply popValue_mirrors.bind
    rintro args _ rfl
    apply popValue_mirrors.bind
    rintro callee _ rfl
    apply (arguments_mirrors _).bind
    rintro items _ rfl
    exact call_mirrors r _ _ _
  | callWithKeywords =>
    apply popValue_mirrors.bind
    rintro keywords _ rfl
    apply popValue_mirrors.bind
    rintro args _ rfl
    apply popValue_mirrors.bind
    rintro callee _ rfl
    apply (arguments_mirrors _).bind
    rintro items _ rfl
    exact call_mirrors r _ _ _
  | callMarked =>
    apply popMarked_mirrors.bind
    rintro g _ rfl
    split
    · exact fail_mirrors _ _
    · exact call_mirrors r _ _ _
  | callNamed name =>
    apply popMarked_mirrors.bind
    rintro g _ rfl
    exact call_mirrors r _ _ _
  | _ => cases h

/-- What changes the uppermost value may leave the other one stale. -/
theorem fill_mirrors (r : Registry) (h : i.fills = true)
    (hapart : unshared extra twin (i.spares slots segments) = true) :
    Follows (Linked near l slots segments)
      (Tied near extra twin bound
        (stale || (i.spares slots segments).1.head?.bind Slot.index? == some extra)) CopiesOut
      (step r op i) (step r op i) fun _ _ => True := by
  have edits : ∀ n a stale, Edits near extra twin bound stale (extend op n a) (extend op n a) :=
    fun n a _ => (editing_edits op).extend n a
  cases i with
  | append =>
    apply popValue_mirrors.bind
    rintro h _ rfl
    exact Edits.mirrors (edits _ _) hapart
  | appends | addItems =>
    apply popMarked_mirrors.bind
    rintro g _ rfl
    exact Edits.mirrors (edits _ _) hapart
  | setItem =>
    apply popValue_mirrors.bind
    rintro value _ rfl
    apply popValue_mirrors.bind
    rintro key _ rfl
    exact Edits.mirrors (edits _ _) hapart
  | setItems =>
    apply popMarked_mirrors.bind
    rintro g _ rfl
    apply (pairs_mirrors _).bind
    rintro entries _ rfl
    exact Edits.mirrors (edits _ _) hapart
  | _ => cases h

/-- One instruction that takes nothing from the stream, in linked machines. -/
theorem step_mirrors (r : Registry) {i : Instruction} (hbuild : i ≠ .build)
    (hmemoize : i ≠ .memoize) (hput : i ≠ .put extra)
    (hapart : i.keepsApart extra twin stale slots segments = true) :
    Follows (Linked near l slots segments)
      (Tied near extra twin bound (i.staleAfter extra twin stale slots segments)) CopiesOut
      (step r op i) (step r op i) fun _ _ => True := by
  -- only what changes the uppermost value can leave the other one stale
  have hquiet : ∀ {p p' : Process Machine Unit},
      Follows (Linked near l slots segments) (Tied near extra twin bound stale) CopiesOut p p'
        (fun _ _ => True) →
      Follows (Linked near l slots segments) (Tied near extra twin bound (stale || false)) CopiesOut
        p p' fun _ _ => True := by
    intro p p' h
    rwa [Bool.or_false]
  cases i with
  | nothing | stop => exact hquiet (Mirrors.tied (Follows.pure trivial))
  | push v => exact hquiet (push_mirrors 0 v).tied
  | inspect => exact hquiet (Mirrors.tied (topSlot_mirrors.bind fun _ _ _ => Follows.pure trivial))
  | mark => exact hquiet mark_mirrors.tied
  | pop => exact hquiet (pop_mirrors r)
  | popMark => exact hquiet (Mirrors.tied (popMark_mirrors.bind fun _ _ _ => Follows.pure trivial))
  | dup => exact hquiet dup_mirrors
  | get k =>
    apply hquiet (pushMemo_mirrors _)
    rintro rfl rfl
    simp [Instruction.keepsApart] at hapart
  | put k =>
    have hk : k ≠ extra := fun h => hput (h ▸ rfl)
    apply put_mirrors hk
    intro heq
    simpa [Instruction.keepsApart, heq] using hapart
  | memoize => exact absurd rfl hmemoize
  | tuple | gather | gatherDict | stackGlobal => exact hquiet (make_mirrors r rfl)
  | append | appends | setItem | setItems | addItems => exact fill_mirrors r rfl hapart
  | call | callWithKeywords | callMarked | callNamed => exact hquiet (invoke_mirrors r rfl)
  | build => exact absurd rfl hbuild

/-- The cursors of linked machines may move. -/
theorem Exposed.moved {near' : Cursor → Cursor → Prop} {m m' : Machine}
    (h : Exposed near extra twin bound stale m m') {c c' : Cursor} (hc : near' c c') :
    Exposed near' extra twin bound stale { m with cursor := c } { m' with cursor := c' } := by
  obtain ⟨l, slots, segments, hm, hapart⟩ := h
  exact ⟨l, slots, segments, { hm with cursor := hc }, hapart⟩

theorem Exposed.cursor {m m' : Machine} (h : Exposed near extra twin bound stale m m') :
    near m.cursor m'.cursor := by
  obtain ⟨l, slots, segments, hm, -⟩ := h
  exact hm.cursor

section
variable {tail tail' : Bytes} {shift : Nat}

/-- An object may take its payload from the bytes that both streams have. -/
theorem buildTop_answers {m m' t : Machine} {state : Held}
    (hm : Exposed (Cursor.Facing tail tail' shift) extra twin bound stale m m')
    (h : (buildTop op state).start m = (.ok (), t)) (htail : tail <:+ t.cursor.rest) :
    ∃ t', (buildTop op state).start m' = (.ok (), t') ∧
      Exposed (Cursor.Facing tail tail' shift) extra twin bound stale t t' := by
  obtain ⟨hn, g, typeName, body, body', c, hg, hv, hrestore, rfl⟩ := buildTop_ok h
  rw [cursor_mapTop] at htail
  obtain ⟨used, hused, hthere⟩ := Body.restore_floats _ _ _ _ _ hrestore
  obtain ⟨c', hused', hc⟩ := hm.cursor.over hused htail
  exact ⟨_, start_buildTop hn (hm.top.trans hg) hv (hthere _ c' hused'),
    ((hm.mapTop _).moved hc).mapTop _⟩

theorem build_answers (r : Registry) {m m' t : Machine}
    (hm : Linked (Cursor.Facing tail tail' shift) l slots segments m m')
    (h : (step r op .build).start m = (.ok (), t)) (htail : tail <:+ t.cursor.rest)
    (hapart : unshared extra twin (slots.tail, segments) = true) :
    Meets (Tied (Cursor.Facing tail tail' shift) extra twin bound
      (stale || slots.tail.head?.bind Slot.index? == some extra)) CopiesOut (fun _ _ => True) () t
      ((step r op .build).start m') := by
  obtain ⟨state, m₁, hpop, hbuild⟩ := start_bind_ok h
  have hmeets := popValue_mirrors m m' hm state m₁ hpop
  rw [step, start_bind]
  rcases ho : (popValue op).start m' with ⟨e | state', m₁'⟩ <;> rw [ho] at hmeets
  · exact hmeets
  · obtain ⟨rfl, hm₁⟩ := hmeets
    obtain ⟨t', hstart', ht⟩ := buildTop_answers (hm₁.exposed hapart) hbuild htail
    dsimp only
    rw [hstart']
    exact ⟨trivial, ht.tied⟩

/-- One instruction in linked machines that have the same bytes before them. -/
theorem step_answers (r : Registry) {i : Instruction} {m m' t : Machine}
    (hm : Linked (Cursor.Facing tail tail' shift) l slots segments m m')
    (h : (step r op i).start m = (.ok (), t)) (htail : tail <:+ t.cursor.rest)
    (hmemoize : i ≠ .memoize) (hput : i ≠ .put extra)
    (hapart : i.keepsApart extra twin stale slots segments = true) :
    Meets (Tied (Cursor.Facing tail tail' shift) extra twin bound
      (i.staleAfter extra twin stale slots segments)) CopiesOut (fun _ _ => True) () t
      ((step r op i).start m') := by
  by_cases hi : i = .build
  · subst hi
    exact build_answers r hm h htail hapart
  · exact step_mirrors r hi hmemoize hput hapart m m' hm () t h

end

end Machine

end PickledModel
