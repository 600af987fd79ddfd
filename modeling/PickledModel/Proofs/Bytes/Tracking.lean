import PickledModel.Proofs.Process.Following
import PickledModel.Proofs.Stream.Operands

/-! Two cursors that read the same bytes. All that is read from a stream is read
in runs of a known length and in lines, so one cursor keeps track of another if
it does for these two reads: it gives the same bytes, or the load stops there. -/

set_option autoImplicit false

namespace PickledModel

variable {α β : Type}

def Read.Tracks (related : Cursor → Cursor → Prop) (stops : LoadError → Prop) (r : Read α) : Prop :=
  ∀ c c', related c c' → ∀ a d, r c = .ok (a, d) →
    match r c' with
    | .ok (b, d') => a = b ∧ related d d'
    | .error s => stops (.shortage s)

namespace Read.Tracks

variable {related : Cursor → Cursor → Prop} {stops : LoadError → Prop} {r : Read α}

theorem bind {f : α → Read β} (hr : r.Tracks related stops)
    (hf : ∀ a, (f a).Tracks related stops) : (r >>= f).Tracks related stops := by
  intro c c' hc b e h
  change (do let (a, c) ← r c; f a c : Except Shortage _) = _ at h
  change match (do let (a, c) ← r c'; f a c : Except Shortage _) with
    | .ok (b', d') => b = b' ∧ related e d'
    | .error s => stops (.shortage s)
  rcases hrc : r c with s | ⟨a, d⟩
  · rw [hrc] at h
    cases h
  · rw [hrc] at h
    have hmeets := hr c c' hc a d hrc
    rcases hrc' : r c' with s | ⟨a', d'⟩ <;> rw [hrc'] at hmeets
    · exact hmeets
    · obtain ⟨rfl, hd⟩ := hmeets
      exact hf a d d' hd b e h

theorem pure (a : α) : Read.Tracks related stops (Pure.pure a : Read α) := by
  rintro c c' hc _ _ ⟨⟩
  exact ⟨rfl, hc⟩

end Read.Tracks

theorem Read.tracks_self (r : Read α) : r.Tracks Eq fun _ => False := by
  rintro c _ rfl a d h
  rw [h]
  exact ⟨rfl, rfl⟩

structure Track where
  related : Cursor → Cursor → Prop
  stops : LoadError → Prop
  position : ∀ c c', related c c' → c.position = c'.position
  take : ∀ n, (Cursor.take n).Tracks related stops
  line : Cursor.line.Tracks related stops

def Track.self : Track where
  related := Eq
  stops _ := False
  position _ _ h := congrArg Cursor.position h
  take n := (Cursor.take n).tracks_self
  line := Cursor.line.tracks_self

namespace Track
open Process

variable {T : Track}

abbrev Along (T : Track) (p : Process Cursor α) : Prop :=
  Follows T.related T.related T.stops p p Eq

theorem Along.bind {p : Process Cursor α} {f : α → Process Cursor β} (hp : T.Along p)
    (hf : ∀ a, T.Along (f a)) : T.Along (p >>= f) := by
  apply Follows.bind hp
  rintro a _ rfl
  exact hf a

theorem Along.pure (a : α) : T.Along (Pure.pure a) := Follows.pure rfl

theorem read {r : Read α} (h : r.Tracks T.related T.stops) : T.Along (Process.read r) := by
  intro c c' hc a d ha
  rcases hr : r c with s | ⟨a', d'⟩
  · rw [start_read_error hr] at ha
    cases ha
  · rw [start_read_ok hr] at ha
    cases ha
    have hmeets := h c c' hc a d hr
    rcases hr' : r c' with s | ⟨b, e⟩ <;> rw [hr'] at hmeets
    · rw [start_read_error hr']
      exact hmeets
    · rw [start_read_ok hr']
      exact hmeets

/-- What is read of runs and lines is tracked as they are. -/
theorem reads (T : Track) : Read.Closed fun r => r.Tracks T.related T.stops where
  pure := .pure
  bind := .bind
  take := T.take
  line := T.line

theorem composed (T : Track) :
    Fetch.Composed (fun r => r.Tracks T.related T.stops) T.Along where
  reads := T.reads
  pure := .pure
  bind := .bind
  read := read
  fail _ _ _ := Follows.get.bind fun _ _ _ => Follows.throw _ _
  protocol _ := Follows.throw _ _
  unsupported _ _ := Follows.throw _ _

end Track

end PickledModel
