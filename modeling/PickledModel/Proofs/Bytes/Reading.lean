import PickledModel.Proofs.Bytes.Fields

/-! Rows of reads. A read that succeeds takes the bytes that write its value, and one
that fails is as good as not made: the next one starts from the same place. So what
was written field by field is read back field by field, and of a stream that is cut
off come the fields before the cut. -/

set_option autoImplicit false

namespace PickledModel

theorem insertIdx_append_length {α : Type} (xs ys : List α) (x : α) :
    (xs ++ ys).insertIdx xs.length x = xs ++ x :: ys := by
  induction xs with
  | nil => rfl
  | cons y xs ih => simp [ih]

section
variable {σ α : Type} {p : Process σ α} {f : LoadError → Process σ α} {s t : σ}

theorem Process.start_tryCatch_ok {a : α} (h : p.start s = (.ok a, t)) :
    (tryCatch p f).start s = (.ok a, t) := by
  change p s = _ at h
  change ExceptT.tryCatch p f s = _
  simp only [ExceptT.tryCatch, ExceptT.mk, bind, StateT.bind, h]
  rfl

theorem Process.start_tryCatch_error {e : LoadError} (h : p.start s = (.error e, t)) :
    (tryCatch p f).start s = (f e).start t := by
  change p s = _ at h
  change ExceptT.tryCatch p f s = _
  simp only [ExceptT.tryCatch, ExceptT.mk, bind, StateT.bind, h]
  rfl

end

namespace Reading
open Cursor Process

def attempt (r : Reading) : Process Cursor Datum := Process.read r.perform

theorem attempt_eq_ok_iff {r : Reading} {c c' : Cursor} {d : Datum} :
    r.attempt.start c = (.ok d, c') ↔ ∃ used, Over used c c' ∧ Spells r used d := by
  rw [← perform_eq_ok_iff]
  constructor
  · intro h
    rcases hread : r.perform c with s | ⟨d', e⟩
    · rw [attempt, start_read_error hread] at h
      cases h
    · rw [attempt, start_read_ok hread] at h
      cases h
      rfl
  · exact start_read_ok

/-- The length of a run is a read of its own that a failure to take the bytes undoes. -/
theorem attempt_run (width : Nat) (c : Cursor) :
    (Reading.run width).attempt.start c = (do
      let n ← Process.read (word width)
      tryCatch (Process.read (Datum.bytes <$> Cursor.take n)) fun e => do
        set c
        throw e).start c := by
  have hrun : (Reading.run width).perform c =
      (word width c).bind fun length => (Datum.bytes <$> Cursor.take length.1) length.2 := by
    rw [perform, Cursor.run, map_bind]
    rfl
  rw [attempt, start_bind]
  rcases hn : word width c with s | ⟨n, d⟩ <;> rw [hn] at hrun
  · rw [start_read_error hn, start_read_error hrun]
  · rw [start_read_ok hn]
    rcases hbs : (Datum.bytes <$> Cursor.take n) d with s | ⟨x, e⟩
    · dsimp only
      rw [start_tryCatch_error (start_read_error hbs), start_read_error (hrun.trans hbs)]
      rfl
    · dsimp only
      rw [start_tryCatch_ok (start_read_ok hbs), start_read_ok (hrun.trans hbs)]

/-- A read that fails leaves the cursor in place and says what it lacked. -/
theorem attempt_error {r : Reading} {c c' : Cursor} {e : LoadError}
    (h : r.attempt.start c = (.error e, c')) :
    c' = c ∧ ∃ s, e = .shortage s ∧ c.position ≤ s.offset ∧
      s.offset + s.available = c.position + c.size ∧ s.available < s.needed := by
  rcases hread : r.perform c with s | ⟨d, c₁⟩
  · rw [attempt, start_read_error hread] at h
    cases h
    exact ⟨rfl, s, rfl, r.perform_failsShort c s hread⟩
  · rw [attempt, start_read_ok hread] at h
    cases h

def readBack (rs : List Reading) : Process Cursor (List Datum) := rs.mapM attempt

/-- The results of reads made one after the other, whether or not those before them
failed, and the cursor they leave. -/
def attempts : List Reading → Cursor → List (Except LoadError Datum) × Cursor
  | [], c => ([], c)
  | r :: rs, c =>
    let (result, c) := r.attempt.start c
    let (results, c) := attempts rs c
    (result :: results, c)

theorem attempts_length (rs : List Reading) (c : Cursor) :
    (attempts rs c).1.length = rs.length := by
  induction rs generalizing c with
  | nil => rfl
  | cons r rs ih => exact congrArg (· + 1) (ih _)

theorem attempts_append (rs rs' : List Reading) (c : Cursor) :
    attempts (rs ++ rs') c =
      ((attempts rs c).1 ++ (attempts rs' (attempts rs c).2).1,
        (attempts rs' (attempts rs c).2).2) := by
  induction rs generalizing c with
  | nil => rfl
  | cons r rs ih => simp only [List.cons_append, attempts, ih]

theorem attempts_over (rs : List Reading) (c : Cursor) : ∃ used, Over used c (attempts rs c).2 := by
  induction rs generalizing c with
  | nil => exact ⟨[], .refl c⟩
  | cons r rs ih =>
    have hrest := ih (r.attempt.start c).2
    rcases hr : r.attempt.start c with ⟨e | d, c'⟩ <;> rw [hr] at hrest
    · obtain ⟨rfl, -⟩ := attempt_error hr
      simpa only [attempts, hr] using hrest
    · obtain ⟨used, hused, -⟩ := attempt_eq_ok_iff.mp hr
      obtain ⟨more, hmore⟩ := hrest
      refine ⟨used ++ more, ?_⟩
      simpa only [attempts, hr] using hused.trans hmore

/-- A read that fails adds its error to the results, and nothing else changes. -/
theorem attempts_insert {before after : List Reading} {r : Reading} {c c' : Cursor} {e : LoadError}
    (h : r.attempt.start (attempts before c).2 = (.error e, c')) :
    attempts (before ++ r :: after) c =
      ((attempts (before ++ after) c).1.insertIdx before.length (.error e),
        (attempts (before ++ after) c).2) := by
  obtain ⟨rfl, -⟩ := attempt_error h
  rw [attempts_append, attempts_append, ← attempts_length before c, insertIdx_append_length]
  simp only [attempts, h]

/-- Fields are read back where they lie. -/
theorem attempts_fields (fields : List Field) {c c' : Cursor}
    (h : Over (Field.encodeAll fields) c c') :
    attempts (fields.map Field.reading) c = (fields.map (.ok ·.datum), c') := by
  induction fields generalizing c with
  | nil => exact Prod.ext rfl h.eq.symm
  | cons f fields ih =>
    obtain ⟨d, hf, hrest⟩ := Over.split h
    have hread : f.reading.attempt.start c = (.ok f.datum, d) :=
      start_read_ok (perform_field f hf)
    simp only [List.map_cons, attempts, hread, ih hrest]

theorem readBack_cons (r : Reading) (rs : List Reading) :
    readBack (r :: rs) = do return (← r.attempt) :: (← readBack rs) := by
  rw [readBack, List.mapM_cons]
  rfl

/-- Reads that all succeed are as many values read back. -/
theorem readBack_of_attempts {rs : List Reading} {ds : List Datum} {c c' : Cursor}
    (h : attempts rs c = (ds.map .ok, c')) : (readBack rs).start c = (.ok ds, c') := by
  induction rs generalizing ds c with
  | nil =>
    cases ds with
    | nil => exact Prod.ext rfl (Prod.mk.inj h).2
    | cons d ds => cases (Prod.mk.inj h).1
  | cons r rs ih =>
    obtain ⟨hresults, hcursor⟩ := Prod.mk.inj h
    cases ds with
    | nil => cases hresults
    | cons d ds =>
      obtain ⟨hr, hresults⟩ := List.cons.inj hresults
      have hread : r.attempt.start c = (.ok d, (r.attempt.start c).2) := Prod.ext hr rfl
      have hrest : (readBack rs).start (r.attempt.start c).2 = (.ok ds, c') :=
        ih (Prod.ext hresults hcursor)
      rw [readBack_cons, start_bind, hread]
      dsimp only
      rw [start_bind, hrest]
      rfl

theorem readBack_fields (fields : List Field) {c c' : Cursor}
    (h : Over (Field.encodeAll fields) c c') :
    (readBack (fields.map Field.reading)).start c = (.ok (fields.map Field.datum), c') := by
  refine readBack_of_attempts ?_
  rw [attempts_fields fields h, List.map_map]
  rfl

theorem readBack_append (rs rs' : List Reading) :
    readBack (rs ++ rs') = do return (← readBack rs) ++ (← readBack rs') :=
  List.mapM_append

/-- Nothing is read back after a read that fails. -/
theorem readBack_stops {before after : List Reading} {r : Reading} {ds : List Datum}
    {c c' d : Cursor} {e : LoadError} (hbefore : (readBack before).start c = (.ok ds, c'))
    (hr : r.attempt.start c' = (.error e, d)) :
    (readBack (before ++ r :: after)).start c = (.error e, d) := by
  have hstop : (readBack (r :: after)).start c' = (.error e, d) := by
    rw [readBack_cons, start_bind, hr]
  rw [readBack_append, start_bind, hbefore]
  dsimp only
  rw [start_bind, hstop]

end Reading

/-- Of encodings that are cut off before their end are left some whole ones and a part
of the next one. -/
theorem Field.encodeAll_take (fields : List Field) {cut : Nat}
    (h : cut < (encodeAll fields).length) :
    ∃ whole f rest part, fields = whole ++ f :: rest ∧
      (encodeAll fields).take cut = encodeAll whole ++ part ∧
      part <+: f.encode ∧ part.length < f.encode.length := by
  induction fields generalizing cut with
  | nil => exact absurd h (Nat.not_lt_zero cut)
  | cons f fields ih =>
    by_cases hcut : cut < f.encode.length
    · refine ⟨[], f, fields, f.encode.take cut, rfl, ?_, List.take_prefix _ _, ?_⟩
      · exact List.take_append_of_le_length (Nat.le_of_lt hcut)
      · rwa [List.length_take_of_le (Nat.le_of_lt hcut)]
    · simp only [encodeAll, List.flatMap_cons, List.length_append] at h ih ⊢
      have hcut' : cut - f.encode.length < (fields.flatMap encode).length := by omega
      obtain ⟨whole, g, rest, part, rfl, htake, hpart⟩ := ih hcut'
      refine ⟨f :: whole, g, rest, part, rfl, ?_, hpart⟩
      rw [List.take_append, List.take_of_length_le (by omega), htake, List.flatMap_cons,
        List.append_assoc]

namespace Cursor
open Process Reading

def within (bs : Bytes) (p : Nat) : Cursor := ⟨p, bs.drop p⟩

/-- What lies between two cursors of a byte run are its bytes between their positions. -/
theorem over_within_iff {bs used : Bytes} {p : Nat} {c : Cursor} (hp : p ≤ bs.length) :
    Over used (within bs p) c ↔
      ∃ q, p ≤ q ∧ q ≤ bs.length ∧ c = within bs q ∧ used = bs.extract p q := by
  obtain ⟨q, rest⟩ := c
  constructor
  · rintro ⟨hrest, hposition⟩
    simp only [within] at hrest hposition
    have hlength := congrArg List.length hrest
    rw [List.length_drop, List.length_append] at hlength
    refine ⟨q, by omega, by omega, ?_, ?_⟩
    · rw [within, Cursor.mk.injEq]
      refine ⟨rfl, ?_⟩
      rw [hposition, ← List.drop_drop, hrest, List.drop_left]
    · rw [List.extract_eq_take_drop, hrest, hposition, Nat.add_sub_cancel_left, List.take_left]
  · rintro ⟨q', hpq, hq, hc, rfl⟩
    rw [hc]
    constructor
    · have hdrop : bs.drop q' = (bs.drop p).drop (q' - p) := by
        rw [List.drop_drop]
        congr 1
        omega
      simp only [within]
      rw [List.extract_eq_take_drop, hdrop, List.take_append_drop]
    · simp only [within, List.extract_eq_take_drop, List.length_take, List.length_drop]
      omega

theorem size_within {bs : Bytes} {p : Nat} (hp : p ≤ bs.length) :
    (within bs p).position + (within bs p).size = bs.length := by
  simp only [within, size, List.length_drop]
  omega

/-- Rows of reads, of any buffer and in any order. Every read finds the cursor within
the buffer. It succeeds with a value where the bytes from there on write that value, and
then stands after them; it fails for want of bytes, stays, and the rest of the row goes as
it would without it. Fields are read back from their encodings, up to the end; of encodings
that are cut off, those that are whole are read back, the next read fails, and the cursor
stands after the last whole field. A read of a run takes the length first, and goes back
to where that began if the bytes cannot be taken. -/
theorem reads_in_a_row :
    (∀ (bs : Bytes) (before : List Reading) (r : Reading) (after : List Reading),
      ∃ p ≤ bs.length, (attempts before (ofBytes bs)).2 = within bs p ∧
        (∀ d c', r.attempt.start (within bs p) = (.ok d, c') ↔
          ∃ q, p ≤ q ∧ q ≤ bs.length ∧ c' = within bs q ∧ Spells r (bs.extract p q) d) ∧
        ∀ e c', r.attempt.start (within bs p) = (.error e, c') →
          c' = within bs p ∧
          (∃ s, e = .shortage s ∧ p ≤ s.offset ∧ s.offset + s.available = bs.length ∧
            s.available < s.needed) ∧
          attempts (before ++ r :: after) (ofBytes bs) =
            ((attempts (before ++ after) (ofBytes bs)).1.insertIdx before.length (.error e),
              (attempts (before ++ after) (ofBytes bs)).2)) ∧
    (∀ fields : List Field,
      (readBack (fields.map Field.reading)).start (ofBytes (Field.encodeAll fields)) =
        (.ok (fields.map Field.datum),
          within (Field.encodeAll fields) (Field.encodeAll fields).length)) ∧
    (∀ (fields : List Field) (cut : Nat), cut < (Field.encodeAll fields).length →
      ∃ whole f rest e, fields = whole ++ f :: rest ∧
        (Field.encodeAll whole).length ≤ cut ∧
        cut < (Field.encodeAll (whole ++ [f])).length ∧
        let bs := (Field.encodeAll fields).take cut
        let c := within bs (Field.encodeAll whole).length
        (readBack (whole.map Field.reading)).start (ofBytes bs) =
          (.ok (whole.map Field.datum), c) ∧
        f.reading.attempt.start c = (.error e, c) ∧
        (readBack (fields.map Field.reading)).start (ofBytes bs) = (.error e, c) ∧
        attempts (fields.map Field.reading) (ofBytes bs) =
          (whole.map (.ok ·.datum) ++ .error e :: (attempts (rest.map Field.reading) c).1,
            (attempts (rest.map Field.reading) c).2)) ∧
    ∀ (width : Nat) (c : Cursor), (Reading.run width).attempt.start c = (do
      let n ← Process.read (word width)
      tryCatch (Process.read (Datum.bytes <$> take n)) fun e => do
        set c
        throw e).start c := by
  refine ⟨fun bs before r after => ?_, fun fields => ?_, fun fields cut hcut => ?_, attempt_run⟩
  · obtain ⟨used, hbefore⟩ := attempts_over before (ofBytes bs)
    obtain ⟨p, -, hp, hcursor, -⟩ := (over_within_iff (Nat.zero_le _)).mp hbefore
    refine ⟨p, hp, hcursor, fun d c' => ?_, fun e c' herror => ?_⟩
    · rw [attempt_eq_ok_iff]
      constructor
      · rintro ⟨used, hused, hspells⟩
        obtain ⟨q, hpq, hq, hc', rfl⟩ := (over_within_iff hp).mp hused
        exact ⟨q, hpq, hq, hc', hspells⟩
      · rintro ⟨q, hpq, hq, hc', hspells⟩
        exact ⟨_, (over_within_iff hp).mpr ⟨q, hpq, hq, hc', rfl⟩, hspells⟩
    · obtain ⟨hstays, s, hs, hoffset, havailable, hneeded⟩ := attempt_error herror
      rw [size_within hp] at havailable
      rw [← hcursor] at herror
      exact ⟨hstays, ⟨s, hs, hoffset, havailable, hneeded⟩, attempts_insert herror⟩
  · have hover : Over (Field.encodeAll fields) (ofBytes (Field.encodeAll fields))
        (within (Field.encodeAll fields) (Field.encodeAll fields).length) := by
      refine (over_within_iff (Nat.zero_le _)).mpr ⟨_, Nat.zero_le _, Nat.le_refl _, rfl, ?_⟩
      rw [List.extract_eq_take_drop, List.drop_zero, Nat.sub_zero]
      exact List.take_length.symm
    exact readBack_fields fields hover
  · obtain ⟨whole, f, rest, part, rfl, hpart, hpartial, hshort⟩ := Field.encodeAll_take fields hcut
    have hlengths := congrArg List.length hpart
    rw [List.length_append, List.length_take_of_le (Nat.le_of_lt hcut)] at hlengths
    have hmore : (Field.encodeAll (whole ++ [f])).length =
        (Field.encodeAll whole).length + f.encode.length := by
      simp [Field.encodeAll]
    have hwithin : within (Field.encodeAll whole ++ part) (Field.encodeAll whole).length =
        ⟨(Field.encodeAll whole).length, part⟩ := by
      rw [within, List.drop_left]
    obtain ⟨s, hs⟩ := perform_cut f (p := (Field.encodeAll whole).length) hpartial hshort
    have hfails : f.reading.attempt.start ⟨(Field.encodeAll whole).length, part⟩ =
        (.error (.shortage s), ⟨(Field.encodeAll whole).length, part⟩) := start_read_error hs
    have hover : Over (Field.encodeAll whole) (ofBytes (Field.encodeAll whole ++ part))
        ⟨(Field.encodeAll whole).length, part⟩ := ⟨rfl, (Nat.zero_add _).symm⟩
    have hback := readBack_fields whole hover
    refine ⟨whole, f, rest, .shortage s, rfl, by omega, by omega, ?_⟩
    dsimp only
    rw [hpart, hwithin, List.map_append, List.map_cons]
    refine ⟨hback, hfails, readBack_stops hback hfails, ?_⟩
    rw [attempts_append, attempts_fields whole hover]
    simp only [attempts, hfails]

/-- A word that does not fit is passed over for a byte that does; and a run that is cut
off after its length is not read back, nor is its length. -/
theorem reads_in_a_row_cut_short :
    (∃ e, attempts [.skip 1, .figure .u32, .figure .u8] (ofBytes [0, 7, 0]) =
      ([.ok .nothing, .error e, .ok (.figure (.u8 7))], within [0, 7, 0] 2)) ∧
    ∃ e, (readBack [.figure .u16, .run 1]).start (ofBytes [0xef, 0xbe, 3, 97]) =
      (.error e, within [0xef, 0xbe, 3, 97] 2) := by
  constructor
  · obtain ⟨p, -, hcursor, -, hfails⟩ :=
      reads_in_a_row.1 [0, 7, 0] [.skip 1] (.figure .u32) [.figure .u8]
    obtain rfl : 1 = p := congrArg Cursor.position hcursor
    exact ⟨_, (hfails _ (within [0, 7, 0] 1) rfl).2.2⟩
  · obtain ⟨whole, f, rest, e, hfields, -, hf, -, -, hback, -⟩ := reads_in_a_row.2.2.1
      [.figure (.u16 0xbeef), .run 1 [97, 98, 99] (by decide)] 4 (by decide)
    refine ⟨e, ?_⟩
    rcases whole with _ | ⟨g, _ | ⟨g', whole⟩⟩
    · obtain ⟨rfl, rfl⟩ := List.cons.inj hfields
      exact absurd hf (by decide)
    · obtain ⟨rfl, -⟩ := List.cons.inj hfields
      exact hback
    · simp at hfields

end Cursor

end PickledModel
