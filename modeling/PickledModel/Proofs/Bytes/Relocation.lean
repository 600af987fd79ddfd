import Mathlib.Data.List.TakeWhile
import PickledModel.Proofs.Object.Restoration
import PickledModel.Proofs.Stream.Instruction
import PickledModel.Proofs.Stream.Operands

/-! A read that succeeds takes a run of bytes, and it knows nothing else of its
stream: wherever the same bytes lie between two cursors, the read leads from the
one to the other with the same result. So do whole instructions, and the states
of objects that take their payload from the stream. -/

set_option autoImplicit false

namespace PickledModel

variable {α β σ : Type}

namespace Cursor

structure Over (used : Bytes) (c c' : Cursor) : Prop where
  rest : c.rest = used ++ c'.rest
  position : c'.position = c.position + used.length

variable {used more : Bytes} {c d e : Cursor}

theorem Over.refl (c : Cursor) : Over [] c c := ⟨rfl, rfl⟩

theorem Over.eq (h : Over [] c d) : d = c := by
  obtain ⟨p, rest⟩ := c
  obtain ⟨q, rest'⟩ := d
  obtain ⟨hrest, hposition⟩ := h
  rw [Cursor.mk.injEq]
  exact ⟨hposition, hrest.symm⟩

theorem Over.trans (h : Over used c d) (h' : Over more d e) : Over (used ++ more) c e where
  rest := by rw [h.rest, h'.rest, List.append_assoc]
  position := by rw [h'.position, h.position, List.length_append, Nat.add_assoc]

/-- Over two runs of bytes one comes by a cursor between them. -/
theorem Over.split (h : Over (used ++ more) c e) : ∃ d, Over used c d ∧ Over more d e := by
  refine ⟨⟨c.position + used.length, more ++ e.rest⟩, ⟨?_, rfl⟩, ⟨rfl, ?_⟩⟩
  · rw [h.rest, List.append_assoc]
  · rw [h.position, List.length_append, Nat.add_assoc]

/-- Before two cursors lie the same bytes, up to two tails. The second cursor
stands `shift` bytes further on. -/
def Facing (tail tail' : Bytes) (shift : Nat) (c c' : Cursor) : Prop :=
  ∃ ahead, c.rest = ahead ++ tail ∧ c'.rest = ahead ++ tail' ∧ c'.position = c.position + shift

/-- As long as the first cursor does not enter its tail, the second one can follow. -/
theorem Facing.over {tail tail' : Bytes} {shift : Nat} {c' : Cursor}
    (h : Facing tail tail' shift c c') (ho : Over used c d) (htail : tail <:+ d.rest) :
    ∃ d', Over used c' d' ∧ Facing tail tail' shift d d' := by
  obtain ⟨ahead, hrest, hrest', hposition⟩ := h
  obtain ⟨left, hleft⟩ := htail
  have hahead : ahead = used ++ left := by
    apply (List.append_left_inj tail).mp
    rw [← hrest, ho.rest, ← hleft, List.append_assoc]
  refine ⟨⟨c'.position + used.length, left ++ tail'⟩, ⟨?_, rfl⟩, left, hleft.symm, rfl, ?_⟩
  · rw [hrest', hahead, List.append_assoc]
  · rw [ho.position, hposition, Nat.add_right_comm]

theorem newline_notMem_takeWhile (bs : Bytes) : (0x0a : UInt8) ∉ bs.takeWhile (· != 0x0a) := by
  intro h
  have hne := List.mem_takeWhile_imp h
  simp at hne

theorem line_ok {c d : Cursor} {bs : Bytes} (h : line c = .ok (bs, d)) :
    c.rest = bs ++ 0x0a :: d.rest ∧ 0x0a ∉ bs ∧ d.position = c.position + bs.length + 1 := by
  unfold line at h
  dsimp only at h
  split at h
  · next b rest hdrop =>
    cases h
    have hrest : c.rest = c.rest.takeWhile (· != 0x0a) ++ b :: rest := by
      have hbefore := List.prefix_iff_eq_take.mp <| List.takeWhile_prefix (l := c.rest) (· != 0x0a)
      have hsplit := List.take_append_drop (c.rest.takeWhile (· != 0x0a)).length c.rest
      rw [hdrop, ← hbefore] at hsplit
      exact hsplit.symm
    refine ⟨?_, newline_notMem_takeWhile _, rfl⟩
    by_cases hb : b = 0x0a
    · rwa [hb] at hrest
    · have htake := congrArg (List.takeWhile (· != 0x0a)) hrest
      rw [List.takeWhile_append_of_pos fun _ => List.mem_takeWhile_imp] at htake
      have hlength := congrArg List.length htake
      simp [hb] at hlength
  · cases h

end Cursor

open Cursor

def Read.Relocates (r : Read α) : Prop :=
  ∀ c a c', r c = .ok (a, c') →
    ∃ used, Over used c c' ∧ ∀ d d', Over used d d' → r d = .ok (a, d')

namespace Read.Relocates

variable {r : Read α}

theorem bind {f : α → Read β} (hr : r.Relocates) (hf : ∀ a, (f a).Relocates) :
    (r >>= f).Relocates := by
  intro c b c₂ h
  change (do let (a, c) ← r c; f a c : Except Shortage _) = _ at h
  rcases hc : r c with s | ⟨a, c₁⟩ <;> rw [hc] at h
  · cases h
  obtain ⟨used, hused, hthere⟩ := hr c a c₁ hc
  obtain ⟨more, hmore, hthere'⟩ := hf a c₁ b c₂ h
  refine ⟨used ++ more, hused.trans hmore, fun d d' hd => ?_⟩
  obtain ⟨e, hde, hed⟩ := hd.split
  change (do let (a, c) ← r d; f a c : Except Shortage _) = _
  rw [hthere d e hde]
  exact hthere' e d' hed

theorem pure (a : α) : Read.Relocates (Pure.pure a) := by
  rintro c _ _ ⟨⟩
  refine ⟨[], .refl c, fun d d' hd => ?_⟩
  rw [hd.eq]
  rfl

theorem take (n : Nat) : (Cursor.take n).Relocates := by
  intro c bs c' h
  obtain ⟨hrest, rfl, hposition⟩ := take_eq_ok_iff.mp h
  refine ⟨bs, ⟨hrest, hposition⟩, fun d d' hd => ?_⟩
  rw [take_eq_ok_iff]
  exact ⟨hd.rest, rfl, hd.position⟩

theorem line : Cursor.line.Relocates := by
  intro c bs c' h
  obtain ⟨hrest, hnewline, hposition⟩ := line_ok h
  refine ⟨bs ++ [0x0a], ⟨?_, ?_⟩, fun d d' hd => ?_⟩
  · rw [hrest, List.append_assoc]
    rfl
  · rw [hposition, List.length_append]
    rfl
  · obtain ⟨p, rest⟩ := d
    obtain ⟨q, rest'⟩ := d'
    obtain ⟨hrest', hposition'⟩ := hd
    dsimp only at hrest' hposition'
    rw [hposition', hrest', List.append_assoc, List.length_append]
    exact line_append p bs rest' hnewline

end Read.Relocates

theorem Read.Closed.relocates : Read.Closed Read.Relocates where
  pure := .pure
  bind := .bind
  take := .take
  line := .line

namespace Process

def Relocates (get : σ → Cursor) (set : Cursor → σ → σ) (p : Process σ α) : Prop :=
  ∀ s a s', p.start s = (.ok a, s') →
    ∃ used, Over used (get s) (get s') ∧
      ∀ d d', Over used d d' → p.start (set d s) = (.ok a, set d' s')

namespace Relocates

variable {get : σ → Cursor} {set : Cursor → σ → σ} {p : Process σ α}

theorem pure (a : α) : Relocates get set (Pure.pure a : Process σ α) := by
  rintro s _ _ ⟨⟩
  refine ⟨[], .refl _, fun d d' hd => ?_⟩
  rw [hd.eq]
  rfl

theorem throw (e : LoadError) : Relocates get set (MonadExcept.throw e : Process σ α) := by
  rintro s a s' ⟨⟩

theorem bind {f : α → Process σ β} (hp : p.Relocates get set)
    (hf : ∀ a, (f a).Relocates get set) : (p >>= f).Relocates get set := by
  intro s b s₂ h
  obtain ⟨a, s₁, ha, hb⟩ := start_bind_ok h
  obtain ⟨used, hused, hthere⟩ := hp s a s₁ ha
  obtain ⟨more, hmore, hthere'⟩ := hf a s₁ b s₂ hb
  refine ⟨used ++ more, hused.trans hmore, fun d d' hd => ?_⟩
  obtain ⟨e, hde, hed⟩ := hd.split
  rw [start_bind, hthere d e hde]
  exact hthere' e d' hed

end Relocates

abbrev Floats (p : Process Cursor α) : Prop := p.Relocates (fun c => c) fun c _ => c

theorem Floats.read {r : Read α} (h : r.Relocates) : (read r).Floats := by
  intro c a c' hs
  rcases hr : r c with s | ⟨b, c₁⟩
  · rw [start_read_error hr] at hs
    cases hs
  · rw [start_read_ok hr] at hs
    cases hs
    obtain ⟨used, hused, hthere⟩ := h c a c' hr
    exact ⟨used, hused, fun d d' hd => start_read_ok (hthere d d' hd)⟩

abbrev FloatsBeside (p : Process (σ × Cursor) α) : Prop :=
  p.Relocates Prod.snd fun c s => (s.1, c)

end Process

namespace Fetch
open Process Read

/-- Whatever an instruction reads, it reads the same wherever its bytes lie. -/
theorem floats_composed : Composed Read.Relocates Process.Floats where
  reads := .relocates
  pure := .pure
  bind := .bind
  read := .read
  fail _ _ _ := by
    rintro d a d' ⟨⟩
  protocol _ := .throw _
  unsupported _ _ := .throw _

/-- The offset of an opcode is for the error that it may end with. -/
theorem instruction_offset {offset : Nat} (offset' : Nat) {op : Opcode} {c c' : Cursor}
    {i : Instruction} (h : (instruction offset op).start c = (.ok i, c')) :
    (instruction offset' op).start c = (.ok i, c') := by
  cases op with
  | persId | binPersId | ext1 | ext2 | ext4 | nextBuffer => cases h
  | _ => exact h

end Fetch

namespace ArrayBody
open Process Read

theorem skipPadding_floats : skipPadding.Floats :=
  (Fetch.floats_composed.number UInt8.ofNat).bind fun n =>
    Floats.read (Read.Closed.relocates.skip n.toNat)

theorem readPayload_floats (state : Value) (size : Nat) : (readPayload state size).Floats := by
  have htake : (Process.read (Cursor.take size)).Floats := Floats.read (.take size)
  rw [readPayload]
  by_cases hpad : isPadded state = true
  · simp only [hpad, if_true]
    exact skipPadding_floats.bind fun _ => htake
  · simp only [hpad]
    exact htake

theorem restoreWrapped_floats (typeName : String) (state : Value) :
    (restoreWrapped typeName state).FloatsBeside := by
  rintro ⟨a, c⟩ _ ⟨a', c'⟩ h
  obtain ⟨hkind, d, shape, size, data, hd, hs, hsize, hpayload, ha⟩ :=
    restoreWrapped_eq_ok_iff.mp h
  obtain ⟨used, hused, hthere⟩ := readPayload_floats state size c data c' hpayload
  exact ⟨used, hused, fun e e' he =>
    restoreWrapped_eq_ok_iff.mpr ⟨hkind, d, shape, size, data, hd, hs, hsize, hthere e e' he, ha⟩⟩

/-- A wrapped array takes its payload from wherever the stream has it. -/
theorem restore_floats (typeName : String) (state : Value) :
    (restore typeName state).FloatsBeside := by
  rintro ⟨a, c⟩ u ⟨b, c'⟩ h
  rw [restore, start_bind, start_get] at h
  simp only [restore, start_bind, start_get]
  cases hlayout : a.layout with
  | wrapped =>
    simp only [hlayout] at h ⊢
    exact restoreWrapped_floats typeName state (a, c) u (b, c') h
  | inlined =>
    simp only [hlayout, start_on] at h ⊢
    obtain ⟨hu, hb⟩ := Prod.mk.inj h
    obtain ⟨rfl, rfl⟩ := Prod.mk.inj hb
    refine ⟨[], .refl c, fun d d' hd => ?_⟩
    rw [hd.eq, hu]

end ArrayBody

/-- Only arrays look at the stream. -/
theorem Body.restore_still {body : Body Value} (h : ∀ a, body ≠ .array a) (typeName : String)
    (state : Value) (c d : Cursor) :
    (Body.restore typeName state).start (body, d) =
      (((Body.restore typeName state).start (body, c)).1,
        ((Body.restore typeName state).start (body, c)).2.1, d) := by
  cases body with
  | array a => exact absurd rfl (h a)
  | descriptor x =>
    change (Body.restore typeName state (.descriptor x, d) : _ × _ × _) =
      ((Body.restore typeName state (.descriptor x, c)).1,
        (Body.restore typeName state (.descriptor x, c)).2.1, d)
    simp only [Body.restore]
    cases x.restore state <;> rfl
  | tree t =>
    change (Body.restore typeName state (.tree t, d) : _ × _ × _) =
      ((Body.restore typeName state (.tree t, c)).1,
        (Body.restore typeName state (.tree t, c)).2.1, d)
    simp only [Body.restore]
    cases t.restore typeName state <;> rfl
  | attributes entries => rfl
  | unresolved => rfl

/-- An object takes its state wherever the stream goes on. -/
theorem Body.restore_floats (typeName : String) (state : Value) :
    (Body.restore typeName state).FloatsBeside := by
  rintro ⟨body, c⟩ u ⟨body', c'⟩ h
  by_cases hbody : ∃ a, body = .array a
  · obtain ⟨a, rfl⟩ := hbody
    have harray : ∀ c, (Body.restore typeName state).start (.array a, c) =
        (((ArrayBody.restore typeName state).start (a, c)).1,
          .array ((ArrayBody.restore typeName state).start (a, c)).2.1,
          ((ArrayBody.restore typeName state).start (a, c)).2.2) := fun _ => rfl
    rw [harray] at h
    rcases ha : (ArrayBody.restore typeName state).start (a, c) with ⟨result, b, c₁⟩
    rw [ha] at h
    cases h
    obtain ⟨used, hused, hthere⟩ := ArrayBody.restore_floats typeName state (a, c) u (b, c₁) ha
    refine ⟨used, hused, fun d d' hd => ?_⟩
    dsimp only
    rw [harray, hthere d d' hd]
  · have hstill := Body.restore_still (fun a ha => hbody ⟨a, ha⟩) typeName state c
    have hc : c' = c := congrArg (fun o => o.2.2) (h.symm.trans (hstill c))
    rw [hc]
    refine ⟨[], .refl c, fun d d' hd => ?_⟩
    dsimp only
    rw [hd.eq, hstill d, h]

/-- The next instruction of a stream is the same wherever its bytes lie. -/
theorem Cursor.fetch?_over {c c' : Cursor} {op : Opcode} {i : Instruction}
    (h : c.fetch? = some (op, i, c')) :
    ∃ used, Over used c c' ∧ ∀ d d', Over used d d' → d.fetch? = some (op, i, d') := by
  unfold Cursor.fetch? at h
  obtain ⟨⟨code, c₁⟩, hcode, h⟩ := Option.bind_eq_some_iff.mp h
  obtain ⟨op', hop, h⟩ := Option.bind_eq_some_iff.mp h
  obtain ⟨⟨i', c₂⟩, hi, h⟩ := Option.bind_eq_some_iff.mp h
  cases h
  obtain ⟨used, hused, hthere⟩ :=
    Fetch.floats_composed.number UInt8.ofNat c code c₁ (Process.result?_eq_some_iff.mp hcode)
  obtain ⟨more, hmore, hthere'⟩ :=
    Fetch.floats_composed.instruction c.position op c₁ i c' (Process.result?_eq_some_iff.mp hi)
  refine ⟨used ++ more, hused.trans hmore, fun d d' hd => ?_⟩
  obtain ⟨e, hde, hed⟩ := hd.split
  have hcode' : (Process.read Cursor.u8).result? d = some (code, e) :=
    Process.result?_eq_some_iff.mpr (hthere d e hde)
  have hi' : (Fetch.instruction d.position op).result? e = some (i, d') :=
    Process.result?_eq_some_iff.mpr (Fetch.instruction_offset _ (hthere' e d' hed))
  simp only [Cursor.fetch?, hcode', hop, hi', Option.bind_eq_bind, Option.bind_some,
    Option.pure_def]

end PickledModel
