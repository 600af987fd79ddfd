import Mathlib
import PickledModel.Proofs.Bytes.Relocation
import PickledModel.Proofs.Object.Rewriting
import PickledModel.Proofs.Stream.CoupledLoads
import PickledModel.Proofs.Value.Footprint

/-! A load that succeeds shows where its stream ends. It reads its bytes in runs
and lines; those that it has read it reads again if more bytes follow, and if the
stream is cut short it reads the same up to where the first one is missing. Only
the copy limit knows the length of the stream, and small streams have one limit. -/

set_option autoImplicit false

namespace PickledModel

/-- Two cursors at one position. The bytes of the first end at `stop`; those of
the second go on with `t`. -/
structure Cursor.Extended (stop : Nat) (t : Bytes) (c c' : Cursor) : Prop where
  position : c.position = c'.position
  rest : c'.rest = c.rest ++ t
  ends : c.position + c.size = stop

namespace Cursor

variable {stop : Nat} {t : Bytes} {c c' d : Cursor} {bs : Bytes}

theorem take_extended {n : Nat} (hc : Extended stop t c c') (h : take n c = .ok (bs, d)) :
    ∃ d', take n c' = .ok (bs, d') ∧ Extended stop t d d' := by
  obtain ⟨hrest, hlength, hposition⟩ := take_eq_ok_iff.mp h
  refine ⟨⟨c'.position + n, d.rest ++ t⟩, ?_, ?_⟩
  · rw [take_eq_ok_iff, hc.rest, hrest, List.append_assoc]
    exact ⟨rfl, hlength, rfl⟩
  · have hends := hc.ends
    rw [size, hrest, List.length_append] at hends
    constructor
    · rw [hposition, hc.position]
    · rfl
    · rw [size, hposition]
      omega

theorem line_extended (hc : Extended stop t c c') (h : line c = .ok (bs, d)) :
    ∃ d', line c' = .ok (bs, d') ∧ Extended stop t d d' := by
  obtain ⟨hrest, hnewline, hposition⟩ := line_ok h
  refine ⟨⟨c'.position + bs.length + 1, d.rest ++ t⟩, ?_, ?_⟩
  · have happend := line_append c'.position bs (d.rest ++ t) hnewline
    rwa [← List.cons_append, ← List.append_assoc, ← hrest, ← hc.rest] at happend
  · have hends := hc.ends
    rw [size, hrest, List.length_append, List.length_cons] at hends
    constructor
    · rw [hposition, hc.position]
    · rfl
    · rw [size, hposition]
      omega

end Cursor

def Read.Extends {α : Type} (stop : Nat) (t : Bytes) (r : Read α) : Prop :=
  ∀ c c', Cursor.Extended stop t c c' → ∀ a d, r c = .ok (a, d) →
    ∃ d', r c' = .ok (a, d') ∧ Cursor.Extended stop t d d'

namespace Read.Extends

variable {α : Type} {stop : Nat} {t : Bytes} {r : Read α} {stops : LoadError → Prop}

theorem tracks (h : r.Extends stop t) : r.Tracks (Cursor.Extended stop t) stops := by
  intro c c' hc a d ha
  obtain ⟨d', hd', hd⟩ := h c c' hc a d ha
  rw [hd']
  exact ⟨rfl, hd⟩

/-- With fewer bytes behind, the read gives the same too, or falls short. -/
theorem tracks_back (h : r.Extends stop t) (hstops : ∀ s, stops (.shortage s)) :
    r.Tracks (fun c c' => Cursor.Extended stop t c' c) stops := by
  intro c c' hc a d ha
  cases hr : r c' with
  | error s => exact hstops s
  | ok o =>
    obtain ⟨a', d'⟩ := o
    obtain ⟨d₁, hd₁, hd⟩ := h c' c hc a' d' hr
    rw [ha] at hd₁
    cases hd₁
    exact ⟨rfl, hd⟩

end Read.Extends

namespace Track

def extending (stop : Nat) (t : Bytes) : Track where
  related := Cursor.Extended stop t
  stops _ := False
  position _ _ hc := hc.position
  take _ := Read.Extends.tracks fun _ _ hc _ _ h => Cursor.take_extended hc h
  line := Read.Extends.tracks fun _ _ hc _ _ h => Cursor.line_extended hc h

def cutting (stop : Nat) (t : Bytes) (stops : LoadError → Prop)
    (hstops : ∀ s, stops (.shortage s)) : Track where
  related c c' := Cursor.Extended stop t c' c
  stops := stops
  position _ _ hc := hc.position.symm
  take _ := Read.Extends.tracks_back (fun _ _ hc _ _ h => Cursor.take_extended hc h) hstops
  line := Read.Extends.tracks_back (fun _ _ hc _ _ h => Cursor.line_extended hc h) hstops

end Track

namespace Coupling
open Process

theorem entries_eq {es fs : List (Value × Value)}
    (h : List.Forall₂ (fun e e' => e.1 = e'.1 ∧ e.2 = e'.2) es fs) : es = fs := by
  rw [← List.forall₂_eq_eq_eq]
  exact h.imp fun _ _ he => Prod.ext he.1 he.2

/-- Machines that hold the same and read alike. The second may have a smaller
allowance if it may stop at its copy limit. -/
def same (T : Track) (r : Registry) (hquiet : ∀ e, T.stops e → ¬ Machine.TooDeep e) : Coupling where
  toTrack := T
  left := r
  right := r
  budget a b := a ≤ b ∨ ∀ limit op offset, T.stops (.malformed (.cause (.copyLimit limit) op offset))
  reports := Eq
  sound _ := True
  ready := Eq
  held := Eq
  taken := Eq
  quiet := hquiet
  held_of_ready _ _ h := h
  ready_of_sound _ _ h _ := h
  nests _ _ h := congrArg Value.nests h
  normalize _ _ h := congrArg Value.normalize h
  bare _ _ _ := rfl
  leaf _ _ h := h.symm
  items := by
    rintro v _ vs rfl h
    exact ⟨vs, h, List.forall₂_refl vs⟩
  gather kind vs ws h := by
    rw [List.forall₂_eq_eq_eq] at h
    rw [h]
  gatherDict _ _ h := by rw [entries_eq h]
  extend := by
    rintro v _ v' a b rfl hab hextends
    have heq : a = b := by
      cases hab with
      | toList h | toSet h =>
        rw [List.forall₂_eq_eq_eq] at h
        rw [h]
      | toDict h => rw [entries_eq h]
    exact ⟨v', heq ▸ hextends, rfl⟩
  call name args args' o h hrun := by
    rw [List.forall₂_eq_eq_eq] at h
    subst h
    refine ⟨o, hrun, rfl, ?_⟩
    rintro rs _ rfl
    rfl
  restore := by
    rintro typeName body _ state _ rfl rfl
    refine ⟨body, rfl, ?_⟩
    have hrestore : Process.Follows (T.Rewritten id) (T.Rewritten id) T.stops
        (Body.restore typeName state) (Body.restore typeName state) fun _ _ => True :=
      Track.restore Rewriting.identity typeName trivial
    apply (hrestore.before _).weaken (fun _ _ h => h)
    · rintro s s' ⟨hs, hc⟩
      rw [Body.map_id] at hs
      exact ⟨by rw [hs], hc⟩
    · rintro s s' ⟨rfl, hs, hc⟩
      exact ⟨by rw [Body.map_id, hs], hc⟩
  copy := by
    rintro v _ a b cost rfl hbudget hcost
    obtain ⟨rfl, hle⟩ := Value.footprint?_eq_some_iff.mp hcost
    rw [Value.footprint?_eq]
    by_cases hb : v.cost ≤ b
    · rw [if_pos hb]
      exact hbudget.imp_left fun h => Nat.sub_le_sub_right h _
    · rw [if_neg hb]
      exact hbudget.resolve_left fun h => hb (Nat.le_trans hle h)

end Coupling

namespace Machine

/-- Machines that read alike end alike, or the second stops. -/
theorem load_ends {T : Track} {r : Registry} (hquiet : ∀ e, T.stops e → ¬ TooDeep e)
    {data data' : Bytes} {v : Value} {m : Machine}
    (hc : T.related (.ofBytes data) (.ofBytes data'))
    (hlimit : copyLimitFor data.length ≤ copyLimitFor data'.length ∨
      ∀ limit op offset, T.stops (.malformed (.cause (.copyLimit limit) op offset)))
    (hn : data.length ≤ data'.length ∨ ∀ s, T.stops (.shortage s))
    (h : (ofBytes data).load r = (.ok v, m)) :
    (Coupling.same T r hquiet).Ends v m ((ofBytes data').load r) := by
  apply Coupling.run_answers (k := .same T r hquiet) (Coupling.ofBytes_coupled hc hlimit rfl) _ hn h
  exact fun _ mj _ => Holds.of_forall (fun _ => trivial) mj

theorem copyLimitFor_mono {a b : Nat} (h : a ≤ b) : copyLimitFor a ≤ copyLimitFor b := by
  rw [copyLimitFor, copyLimitFor]
  omega

theorem copyLimitFor_small {length : Nat} (h : length ≤ 524288) :
    copyLimitFor length = 64 * 2 ^ 20 := by
  rw [copyLimitFor, Value.largestSize]
  omega

/-- Bytes behind a stream that loads change nothing. -/
theorem load_append {data : Bytes} {r : Registry} {v : Value} {m : Machine}
    (h : (ofBytes data).load r = (.ok v, m)) (t : Bytes) :
    ∃ m', (ofBytes (data ++ t)).load r = (.ok v, m') ∧ m'.diagnostics = m.diagnostics ∧
      m'.cursor.position = m.cursor.position := by
  have hlength : data.length ≤ (data ++ t).length := by simp
  have hcursor : Cursor.Extended data.length t (.ofBytes data) (.ofBytes (data ++ t)) :=
    ⟨rfl, rfl, Nat.zero_add _⟩
  have hends := load_ends (T := Track.extending data.length t) (fun _ he => he.elim) hcursor
    (.inl (copyLimitFor_mono hlength)) (.inl hlength) h
  rcases hload : (ofBytes (data ++ t)).load r with ⟨e | w, m'⟩ <;> rw [hload] at hends
  · exact hends.1.elim
  · obtain ⟨rfl, hcoupled⟩ := hends
    have hreports : m.reports = m'.reports := hcoupled.reports
    exact ⟨m', rfl, by rw [diagnostics, diagnostics, hreports], hcoupled.cursor.position.symm⟩

/-- How the load of a stream fails that is cut short: bytes are missing, or the
copy limit of a long stream is no longer what it was. -/
def CutShort (length : Nat) (e : LoadError) : Prop :=
  (∃ s, e = .shortage s) ∨
    524288 < length ∧ ∃ limit op offset, e = .malformed (.cause (.copyLimit limit) op offset)

theorem CutShort.not_tooDeep {length : Nat} {e : LoadError} (h : CutShort length e) :
    ¬ TooDeep e := by
  rintro ⟨op, offset, rfl⟩
  rcases h with ⟨s, hs⟩ | ⟨-, limit, op', offset', he⟩
  · cases hs
  · cases he

/-- Cut short before its end, a stream that loads no longer does. -/
theorem load_take {data : Bytes} {r : Registry} {v : Value} {m : Machine}
    (h : (ofBytes data).load r = (.ok v, m)) {k : Nat} (hk : k < m.cursor.position) :
    ∃ e m', (ofBytes (data.take k)).load r = (.error e, m') ∧ CutShort data.length e ∧
      m'.diagnostics <+: m.diagnostics := by
  have hlimit : copyLimitFor data.length ≤ copyLimitFor (data.take k).length ∨
      ∀ limit op offset,
        CutShort data.length (.malformed (.cause (.copyLimit limit) op offset)) := by
    by_cases hlong : 524288 < data.length
    · exact .inr fun limit op offset => .inr ⟨hlong, limit, op, offset, rfl⟩
    · have hshort : (data.take k).length ≤ data.length := List.length_take_le' k data
      left
      rw [copyLimitFor_small (by omega), copyLimitFor_small (by omega)]
  have hshortage : ∀ s, CutShort data.length (.shortage s) := fun s => .inl ⟨s, rfl⟩
  have hcursor : Cursor.Extended (data.take k).length (data.drop k) (.ofBytes (data.take k))
      (.ofBytes data) :=
    ⟨rfl, (List.take_append_drop k data).symm, Nat.zero_add _⟩
  have hends := load_ends (T := Track.cutting _ _ (CutShort data.length) hshortage)
    (fun _ he => he.not_tooDeep) hcursor hlimit (.inr hshortage) h
  rcases hload : (ofBytes (data.take k)).load r with ⟨e | w, m'⟩ <;> rw [hload] at hends
  · obtain ⟨hcut, rs, hfirst, hrs⟩ := hends
    have hreports : rs = m'.reports := hrs
    rw [hreports] at hfirst
    exact ⟨e, m', rfl, hcut, hfirst.map _⟩
  · -- a load that succeeds has not gone behind the end of its stream
    have hcursor' : Cursor.Extended (data.take k).length (data.drop k) m'.cursor m.cursor :=
      hends.2.cursor
    have hposition := hcursor'.position
    have hsize := hcursor'.ends
    have hlength := List.length_take_le k data
    omega

/-- A stream that loads delimits itself: whatever follows it, it loads alike, and
cut short anywhere before the position reached it does not load. Then its
diagnostics are the first ones of the whole load, and if it is small the error is
always that bytes are missing. -/
theorem load_self_delimiting {data : Bytes} {r : Registry} {v : Value} {m : Machine}
    (h : (ofBytes data).load r = (.ok v, m)) :
    (∀ t, ∃ m', (ofBytes (data ++ t)).load r = (.ok v, m') ∧ m'.diagnostics = m.diagnostics ∧
      m'.cursor.position = m.cursor.position) ∧
    ∀ k < m.cursor.position, ∃ e m', (ofBytes (data.take k)).load r = (.error e, m') ∧
      m'.diagnostics <+: m.diagnostics ∧ (data.length ≤ 524288 → ∃ s, e = .shortage s) := by
  constructor
  · exact load_append h
  · intro k hk
    obtain ⟨e, m', hload, hcut, hfirst⟩ := load_take h hk
    refine ⟨e, m', hload, hfirst, fun hsmall => ?_⟩
    exact hcut.resolve_right fun hlong => Nat.not_lt.mpr hsmall hlong.1

namespace LineAndRun

/-- A tuple of a number that ends with its line and of a run of one byte, and a byte behind it. -/
def stream : Bytes := [0x28, 0x49, 0x37, 0x0a, 0x43, 0x01, 0x58, 0x74, 0x2e, 0x4e]

def value : Value := .tuple [.int 7, .bytes [0x58]]

def loaded : Machine := { ofBytes stream with cursor := ⟨9, [0x4e]⟩ }

theorem load_value : (ofBytes stream).load .empty = (.ok value, loaded) := by
  cbv

end LineAndRun

theorem load_self_delimiting_tuple :
    (∃ m', (ofBytes (LineAndRun.stream ++ [0x2e])).load .empty = (.ok LineAndRun.value, m') ∧
      m'.diagnostics = [] ∧ m'.cursor.position = 9) ∧
    ∃ e m', (ofBytes (LineAndRun.stream.take 6)).load .empty = (.error e, m') ∧
      m'.diagnostics <+: [] ∧ (10 ≤ 524288 → ∃ s, e = .shortage s) :=
  have h := load_self_delimiting LineAndRun.load_value
  ⟨h.1 [0x2e], h.2 6 (by decide)⟩

end Machine

end PickledModel
