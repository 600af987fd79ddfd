import PickledModel.Proofs.Bytes.Arithmetic
import PickledModel.Proofs.Bytes.Reading
import PickledModel.Proofs.Stream.Mirroring
import PickledModel.Proofs.Stream.RoundTrip

/-! Looks at what comes next. They take nothing: the reads around them go as they would
without them. Where a window ends is a sum of words, and a look is answered just as long
as that sum is a word itself, however few bytes there are to be shown. -/

set_option autoImplicit false

namespace PickledModel

namespace Cursor

def slice? (bs : Bytes) (start stop : UInt64) : Option Bytes :=
  if start ≤ stop ∧ stop.toNat ≤ bs.length then some (bs.extract start.toNat stop.toNat) else none

/-- The window of at most `max` bytes from a position on, found by words: it ends at the
sum of both, or with the run. -/
def window? (o : Word.Overflow) (bs : Bytes) (start max : UInt64) : Option Bytes := do
  let stop ← Word.sum? o start max
  slice? bs start (min (UInt64.ofNat bs.length) stop)

def ahead (bs : Bytes) (p max : Nat) : Bytes := bs.extract p (p + min max (bs.length - p))

variable {c : Cursor} {bs : Bytes} {p : Nat}

theorem lookahead?_eq_none_iff {max : Nat} :
    c.lookahead? max = none ↔ 2 ^ 64 ≤ c.position + max := by
  simp [lookahead?]

theorem ahead_eq_take (bs : Bytes) (p max : Nat) : ahead bs p max = (bs.drop p).take max := by
  rw [ahead, List.extract_eq_take_drop, Nat.add_sub_cancel_left, ← List.length_drop,
    ← List.take_eq_take_min]

theorem lookahead?_within {max : Nat} (h : p + max < 2 ^ 64) :
    (within bs p).lookahead? max = some (ahead bs p max) := by
  have hend : (within bs p).position + max < 2 ^ 64 := h
  rw [lookahead?, if_pos hend, ahead_eq_take]
  rfl

theorem slice?_of_lt {start stop : UInt64} (h : stop < start) : slice? bs start stop = none := by
  have hstart : ¬ start ≤ stop := UInt64.not_le.mpr h
  rw [slice?, if_neg fun hboth => hstart hboth.1]

/-- By words a look is answered as the cursor answers it, whichever way overflows go. -/
theorem window?_eq (hbs : bs.length < 2 ^ 64) (hp : p ≤ bs.length) (o : Word.Overflow)
    (max : UInt64) :
    window? o bs (UInt64.ofNat p) max = (within bs p).lookahead? max.toNat := by
  have hstart : (UInt64.ofNat p).toNat = p := UInt64.toNat_ofNat_of_lt' (by rw [UInt64.size]; omega)
  have hlength : (UInt64.ofNat bs.length).toNat = bs.length := UInt64.toNat_ofNat_of_lt' hbs
  have hcases := Word.sum?_cases o (UInt64.ofNat p) max
  rw [hstart] at hcases
  rcases hcases with ⟨stop, hsum, hstop⟩ | ⟨hlarge, hbefore⟩
  · have hend : (min (UInt64.ofNat bs.length) stop).toNat = p + min max.toNat (bs.length - p) := by
      rw [UInt64.toNat_min, hlength, hstop]
      omega
    have hbounds : UInt64.ofNat p ≤ min (UInt64.ofNat bs.length) stop ∧
        (min (UInt64.ofNat bs.length) stop).toNat ≤ bs.length := by
      rw [UInt64.le_iff_toNat_le, hend, hstart]
      omega
    have hword := stop.toNat_lt
    rw [hstop] at hword
    rw [window?, hsum, Option.bind_eq_bind, Option.bind_some, slice?, if_pos hbounds, hend, hstart,
      lookahead?_within hword, ahead]
  · -- what is left of the sum lies before the position, and so does where the window would end
    rw [lookahead?_eq_none_iff.mpr hlarge, window?]
    cases hsum : Word.sum? o (UInt64.ofNat p) max with
    | none => rfl
    | some stop =>
      have hstop := UInt64.lt_iff_toNat_lt.mp (hbefore stop hsum)
      have hlt : min (UInt64.ofNat bs.length) stop < UInt64.ofNat p := by
        rw [UInt64.lt_iff_toNat_lt, UInt64.toNat_min]
        omega
      exact slice?_of_lt hlt

end Cursor

inductive Use where
  | read (r : Reading)
  | peek
  | lookahead (max : UInt64)
  deriving DecidableEq, Repr

inductive Finding where
  | read (result : Except LoadError Datum)
  | peek (byte : Option UInt8)
  | lookahead (window : Bytes)
  deriving DecidableEq, Repr

namespace Use
open Cursor Reading

def reading? : Use → Option Reading
  | .read r => some r
  | _ => none

def perform : Use → Cursor → Option (Finding × Cursor)
  | .read r, c => some (.read (r.attempt.start c).1, (r.attempt.start c).2)
  | .peek, c => some (.peek c.peek?, c)
  | .lookahead max, c => (c.lookahead? max.toNat).map fun window => (.lookahead window, c)

def readings (us : List Use) : List Reading := us.filterMap reading?

def performAll : List Use → Cursor → Option (List Finding × Cursor)
  | [], c => some ([], c)
  | u :: us, c => do
    let (finding, c) ← u.perform c
    let (findings, c) ← performAll us c
    return (finding :: findings, c)

def reach (us : List Use) (c : Cursor) : Cursor := (attempts (readings us) c).2

theorem reach_cons {u : Use} {us : List Use} {c d : Cursor} {finding : Finding}
    (h : u.perform c = some (finding, d)) : reach (u :: us) c = reach us d := by
  cases u with
  | read r =>
    obtain ⟨-, rfl⟩ := Prod.mk.inj (Option.some.inj h)
    rfl
  | peek =>
    obtain ⟨-, rfl⟩ := Prod.mk.inj (Option.some.inj h)
    rfl
  | lookahead max =>
    obtain ⟨window, -, hpair⟩ := Option.map_eq_some_iff.mp h
    obtain ⟨-, rfl⟩ := Prod.mk.inj hpair
    rfl

theorem perform_eq_none_iff {u : Use} {c : Cursor} :
    u.perform c = none ↔ ∃ max, u = .lookahead max ∧ 2 ^ 64 ≤ c.position + max.toNat := by
  cases u with
  | read r => simp [perform]
  | peek => simp [perform]
  | lookahead max => simp [perform, lookahead?_eq_none_iff]

theorem performAll_cons {u : Use} {us : List Use} {c d : Cursor} {finding : Finding}
    (h : u.perform c = some (finding, d)) :
    performAll (u :: us) c = (performAll us d).map fun (findings, e) => (finding :: findings, e) := by
  rw [performAll, h, Option.bind_eq_bind, Option.bind_some]
  dsimp only
  cases performAll us d with
  | none => rfl
  | some result => rfl

theorem performAll_append (us vs : List Use) (c : Cursor) :
    performAll (us ++ vs) c = do
      let (findings, d) ← performAll us c
      let (others, e) ← performAll vs d
      return (findings ++ others, e) := by
  induction us generalizing c with
  | nil => simp [performAll]
  | cons u us ih => simp [performAll, ih, Option.bind_assoc]

/-- Only the reads of a row move the cursor. -/
theorem performAll_reach {us : List Use} {c d : Cursor} {findings : List Finding}
    (h : performAll us c = some (findings, d)) :
    d = reach us c ∧ findings.length = us.length := by
  induction us generalizing c findings with
  | nil =>
    obtain ⟨rfl, rfl⟩ := Prod.mk.inj (Option.some.inj h)
    exact ⟨rfl, rfl⟩
  | cons u us ih =>
    obtain ⟨⟨finding, c'⟩, hu, h⟩ := Option.bind_eq_some_iff.mp h
    obtain ⟨⟨findings', d'⟩, hus, h⟩ := Option.bind_eq_some_iff.mp h
    obtain ⟨rfl, rfl⟩ := Prod.mk.inj (Option.some.inj h)
    obtain ⟨hcursor, hlength⟩ := ih hus
    rw [reach_cons hu]
    exact ⟨hcursor, congrArg (· + 1) hlength⟩

/-- A look that is answered adds its window to the findings, and nothing else changes. -/
theorem performAll_insert {before after : List Use} {max : UInt64} {c : Cursor} {window : Bytes}
    (h : (reach before c).lookahead? max.toNat = some window) :
    performAll (before ++ .lookahead max :: after) c =
      (performAll (before ++ after) c).map fun (findings, d) =>
        (findings.insertIdx before.length (.lookahead window), d) := by
  rw [performAll_append, performAll_append]
  cases hbefore : performAll before c with
  | none => rfl
  | some result =>
    obtain ⟨findings, d⟩ := result
    obtain ⟨rfl, hlength⟩ := performAll_reach hbefore
    cases hafter : performAll after (reach before c) with
    | none => simp [performAll, perform, h, hafter]
    | some result =>
      simp [performAll, perform, h, hafter, ← hlength, insertIdx_append_length]

/-- A row stops where a window would end at no word, and nowhere else. -/
theorem performAll_eq_none_iff {us : List Use} {c : Cursor} :
    performAll us c = none ↔ ∃ (before : List Use) (max : UInt64) (after : List Use),
      us = before ++ .lookahead max :: after ∧
        2 ^ 64 ≤ (reach before c).position + max.toNat := by
  induction us generalizing c with
  | nil => simp [performAll]
  | cons u us ih =>
    cases hu : u.perform c with
    | none =>
      obtain ⟨max, rfl, hlarge⟩ := perform_eq_none_iff.mp hu
      constructor
      · exact fun _ => ⟨[], max, us, rfl, hlarge⟩
      · intro _
        simp [performAll, hu]
    | some result =>
      obtain ⟨finding, d⟩ := result
      rw [performAll_cons hu, Option.map_eq_none_iff, ih]
      constructor
      · rintro ⟨before, max, after, rfl, hlarge⟩
        exact ⟨u :: before, max, after, rfl, by rwa [reach_cons hu]⟩
      · rintro ⟨before, max, after, heq, hlarge⟩
        cases before with
        | nil =>
          obtain ⟨rfl, rfl⟩ := List.cons.inj heq
          have hnone : (lookahead max).perform c = none :=
            perform_eq_none_iff.mpr ⟨max, rfl, hlarge⟩
          rw [hnone] at hu
          cases hu
        | cons v before =>
          obtain ⟨rfl, rfl⟩ := List.cons.inj heq
          rw [reach_cons hu] at hlarge
          exact ⟨before, max, after, rfl, hlarge⟩

end Use

namespace Machine
open Cursor Process

/-- At a byte that is no opcode the load stops, and reports the bytes behind it. -/
theorem start_next_unknown (r : Registry) {m : Machine} {code : UInt8} {rest : Bytes}
    (hrest : m.cursor.rest = code :: rest) (hcode : Opcode.ofByte? code = none) :
    (next r).start m =
      (.error (.malformed (.unknown code m.cursor.position (rest.take 8))),
        { m with cursor := ⟨m.cursor.position + 1, rest⟩ }) := by
  have hread : (read Cursor.u8).start m.cursor = (.ok code, ⟨m.cursor.position + 1, rest⟩) := by
    have hstart := start_u8 code m.cursor.position rest
    rwa [← hrest] at hstart
  rw [next, start_bind, start_get]
  dsimp only
  rw [start_bind, start_onCursor, hread]
  dsimp only
  rw [hcode]
  rfl

/-- The report of a byte that is no opcode is a look that is answered. -/
theorem unknown_looks_ahead {bs : Bytes} (hbs : bs.length + 8 < 2 ^ 64) {r : Registry}
    {n p : Nat} {m t : Machine} {code : UInt8} (hp : p ≤ bs.length) (hm : m.cursor = within bs p)
    (ht : m.after? r n = some t) (hpeek : t.cursor.peek? = some code)
    (hcode : Opcode.ofByte? code = none) :
    ∃ q < bs.length, t.cursor = within bs q ∧
      (within bs (q + 1)).lookahead? 8 = some (ahead bs (q + 1) 8) ∧
      (next r).start t = (.error (.malformed (.unknown code q (ahead bs (q + 1) 8))),
        { t with cursor := within bs (q + 1) }) := by
  obtain ⟨used, hover⟩ := after?_over ht
  rw [hm] at hover
  obtain ⟨q, -, -, hcursor, -⟩ := (over_within_iff hp).mp hover
  rw [hcursor] at hpeek
  obtain ⟨rest, hdrop⟩ := List.head?_eq_some_iff.mp hpeek
  have hq : q < bs.length := by
    have hlength := congrArg List.length hdrop
    simp only [within, List.length_drop, List.length_cons] at hlength
    omega
  have hrest : bs.drop (q + 1) = rest := by
    rw [← List.drop_drop]
    exact congrArg (List.drop 1) hdrop
  have hstop := start_next_unknown r (m := t) (by rw [hcursor, hdrop]) hcode
  have hbehind : within bs (q + 1) = ⟨q + 1, rest⟩ := by rw [within, hrest]
  refine ⟨q, hq, hcursor, lookahead?_within (by omega), ?_⟩
  rw [hstop, hcursor, ahead_eq_take, hrest, hbehind]
  rfl

end Machine

namespace Cursor
open Use

theorem reach_within (bs : Bytes) (us : List Use) :
    ∃ p ≤ bs.length, reach us (ofBytes bs) = within bs p := by
  obtain ⟨used, hover⟩ := Reading.attempts_over (readings us) (ofBytes bs)
  obtain ⟨p, -, hp, hcursor, -⟩ := (over_within_iff (Nat.zero_le _)).mp hover
  exact ⟨p, hp, hcursor⟩

/-- A look of any size is answered only as long as nothing has been taken. -/
theorem lookahead?_total_iff {bs : Bytes} {p : Nat} (hbs : bs.length < 2 ^ 64)
    (hp : p ≤ bs.length) :
    (∀ max : UInt64, ((within bs p).lookahead? max.toNat).isSome) ↔ p = 0 := by
  constructor
  · intro hall
    by_contra hne
    -- with this size the sum is the least number that is no word
    have hmax : (UInt64.ofNat (2 ^ 64 - p)).toNat = 2 ^ 64 - p :=
      UInt64.toNat_ofNat_of_lt' (by rw [UInt64.size]; omega)
    have hsome := hall (UInt64.ofNat (2 ^ 64 - p))
    have hlarge : 2 ^ 64 ≤ (within bs p).position + (2 ^ 64 - p) := by
      simp only [within]
      omega
    rw [hmax, lookahead?_eq_none_iff.mpr hlarge] at hsome
    cases hsome
  · rintro rfl max
    have hword := max.toNat_lt
    rw [lookahead?_within (by omega)]
    rfl

/-- Looks between reads, of any buffer and in any order. A look finds the cursor within the
buffer, where the reads before it have left it. If the position and the size asked for have
a word for their sum, it shows the next bytes, and the rest of the row goes as it would
without it. If not, it is not answered, whether the sum is refused or wrapped around, and
that is where the row stops; so every size can be asked for at the start alone. A load looks
8 bytes ahead where it comes to no opcode, and is always answered. -/
theorem lookahead_settled (bs : Bytes) (hbs : bs.length < 2 ^ 64) :
    (∀ us : List Use, ∃ p ≤ bs.length, reach us (ofBytes bs) = within bs p ∧
      (∀ findings c, performAll us (ofBytes bs) = some (findings, c) → c = within bs p) ∧
      ((∀ max : UInt64, ((within bs p).lookahead? max.toNat).isSome) ↔ p = 0) ∧
      ∀ max : UInt64,
        (∀ o, window? o bs (UInt64.ofNat p) max = (within bs p).lookahead? max.toNat) ∧
        (p + max.toNat < 2 ^ 64 →
          (within bs p).lookahead? max.toNat = some (ahead bs p max.toNat) ∧
          ∀ after : List Use, performAll (us ++ .lookahead max :: after) (ofBytes bs) =
            (performAll (us ++ after) (ofBytes bs)).map fun (findings, c) =>
              (findings.insertIdx us.length (.lookahead (ahead bs p max.toNat)), c)) ∧
        (2 ^ 64 ≤ p + max.toNat → (within bs p).lookahead? max.toNat = none)) ∧
    (∀ us : List Use, performAll us (ofBytes bs) = none ↔
      ∃ (before : List Use) (max : UInt64) (after : List Use),
        us = before ++ .lookahead max :: after ∧
          2 ^ 64 ≤ (reach before (ofBytes bs)).position + max.toNat) ∧
    (bs.length + 8 < 2 ^ 64 → ∀ (r : Registry) (n p : Nat) (m t : Machine) (code : UInt8),
      p ≤ bs.length → m.cursor = within bs p → m.after? r n = some t →
      t.cursor.peek? = some code → Opcode.ofByte? code = none →
      ∃ q < bs.length, t.cursor = within bs q ∧
        (within bs (q + 1)).lookahead? 8 = some (ahead bs (q + 1) 8) ∧
        (Machine.next r).start t = (.error (.malformed (.unknown code q (ahead bs (q + 1) 8))),
          { t with cursor := within bs (q + 1) })) := by
  refine ⟨?_, fun us => performAll_eq_none_iff, ?_⟩
  · intro us
    obtain ⟨p, hp, hreach⟩ := reach_within bs us
    refine ⟨p, hp, hreach, ?_, lookahead?_total_iff hbs hp, ?_⟩
    · intro findings c h
      rw [(performAll_reach h).1, hreach]
    · intro max
      refine ⟨fun o => window?_eq hbs hp o max, ?_, ?_⟩
      · intro hend
        have hlook : (within bs p).lookahead? max.toNat = some (ahead bs p max.toNat) :=
          lookahead?_within hend
        refine ⟨hlook, ?_⟩
        intro after
        rw [← hreach] at hlook
        exact performAll_insert hlook
      · exact fun hlarge => lookahead?_eq_none_iff.mpr hlarge
  · intro hlength r n p m t code hp hm ht hpeek hcode
    exact Machine.unknown_looks_ahead hlength hp hm ht hpeek hcode

/-- Behind the first of three bytes, the largest size but one is answered and the largest is not. -/
theorem lookahead_settled_second_byte :
    ([1, 2, 3] : Bytes).length < 2 ^ 64 ∧
      performAll [.read (.figure .u8), .lookahead 0xfffffffffffffffe, .read (.take 2)]
          (ofBytes [1, 2, 3]) =
        some ([.read (.ok (.figure (.u8 1))), .lookahead [2, 3], .read (.ok (.bytes [2, 3]))],
          within [1, 2, 3] 3) ∧
      performAll [.read (.figure .u8), .lookahead 0xffffffffffffffff] (ofBytes [1, 2, 3]) = none ∧
      (∀ o, window? o [1, 2, 3] 1 0xffffffffffffffff = none) ∧
      ((Machine.next .empty).start (Machine.ofBytes [1, 2, 3])).1 =
        .error (.malformed (.unknown 1 0 [2, 3])) := by
  have hfits : ([1, 2, 3] : Bytes).length < 2 ^ 64 := by decide
  obtain ⟨hrows, hstops, hloads⟩ := lookahead_settled [1, 2, 3] hfits
  obtain ⟨p, -, hreach, -, -, hlooks⟩ := hrows [.read (.figure .u8)]
  obtain rfl : 1 = p := congrArg Cursor.position hreach
  obtain ⟨-, hanswered, -⟩ := hlooks 0xfffffffffffffffe
  obtain ⟨hwords, -, hunanswered⟩ := hlooks 0xffffffffffffffff
  refine ⟨hfits, ?_, ?_, ?_, ?_⟩
  · exact (hanswered (by decide)).2 [.read (.take 2)]
  · exact (hstops _).mpr ⟨[.read (.figure .u8)], 0xffffffffffffffff, [], rfl, by decide⟩
  · intro o
    exact (hwords o).trans (hunanswered (by decide))
  · obtain ⟨q, -, hcursor, -, hstop⟩ := hloads (by decide) .empty 0 0 (Machine.ofBytes [1, 2, 3])
      (Machine.ofBytes [1, 2, 3]) 1 (Nat.zero_le _) rfl rfl rfl (by decide)
    obtain rfl : 0 = q := congrArg Cursor.position hcursor
    rw [hstop]
    rfl

/-- Of two bytes one is left; a look that could show it is not answered, by words in either way. -/
theorem widest_lookahead_unanswered :
    performAll [.read (.figure .u8)] (ofBytes [1, 2]) =
        some ([.read (.ok (.figure (.u8 1)))], within [1, 2] 1) ∧
      ahead [1, 2] 1 (2 ^ 64 - 1) = [2] ∧
      (within [1, 2] 1).lookahead? (2 ^ 64 - 1) = none ∧
      window? .refused [1, 2] 1 0xffffffffffffffff = none ∧
      window? .wrapped [1, 2] 1 0xffffffffffffffff = none := by
  refine ⟨rfl, ?_, ?_, ?_, ?_⟩
  · decide
  · decide
  · decide
  · decide

end Cursor

end PickledModel
