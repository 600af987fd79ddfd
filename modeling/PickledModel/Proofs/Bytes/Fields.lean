import PickledModel.Proofs.Bytes.Figures

/-! Fields and the reads that match them. A read succeeds where bytes lie that it is to
take, gives what they write, and fails only for want of bytes; so a field is read back from
its encoding, and is not read back from a part of it. -/

set_option autoImplicit false

namespace PickledModel

section
variable {α β : Type} {r : Read α}

def Read.FailsShort (r : Read α) : Prop :=
  ∀ c s, r c = .error s →
    c.position ≤ s.offset ∧ s.offset + s.available = c.position + c.size ∧ s.available < s.needed

namespace Read.FailsShort

theorem bind {f : α → Read β} (hr : r.FailsShort) (hover : r.Relocates)
    (hf : ∀ a, (f a).FailsShort) : (r >>= f).FailsShort := by
  intro c s h
  change (do let (a, c) ← r c; f a c : Except Shortage _) = _ at h
  rcases hc : r c with s' | ⟨a, d⟩ <;> rw [hc] at h
  · obtain rfl : s' = s := Except.error.inj h
    exact hr c s' hc
  · obtain ⟨used, ⟨hrest, hposition⟩, -⟩ := hover c a d hc
    obtain ⟨hoffset, hend, hneeded⟩ := hf a d s h
    have hlength := congrArg List.length hrest
    rw [List.length_append] at hlength
    rw [Cursor.size] at hend ⊢
    omega

theorem pure (a : α) : (Pure.pure a : Read α).FailsShort := by
  rintro c s ⟨⟩

theorem take (n : Nat) : (Cursor.take n).FailsShort := by
  intro c s h
  by_cases hn : c.size < n
  · rw [Cursor.take_error hn] at h
    cases h
    exact ⟨Nat.le_refl _, rfl, hn⟩
  · rw [Cursor.size] at hn
    rw [Cursor.take, List.length_take, if_pos (by omega)] at h
    cases h

theorem line : Cursor.line.FailsShort := by
  intro c s h
  unfold Cursor.line at h
  dsimp only at h
  split at h
  · cases h
  · next hdrop =>
    cases h
    have hlength := congrArg List.length hdrop
    have hle := (List.takeWhile_prefix (l := c.rest) (· != 0x0a)).length_le
    rw [List.length_drop, List.length_nil] at hlength
    rw [Cursor.size]
    dsimp only
    omega

end Read.FailsShort

-- what a read lacks is counted from where it starts, so the reads before it must be known to
-- have taken what they gave
theorem Read.Closed.failsShort : Read.Closed fun r => r.Relocates ∧ r.FailsShort where
  pure a := ⟨.pure a, .pure a⟩
  bind hr hf := ⟨hr.1.bind fun a => (hf a).1, hr.2.bind hr.1 fun a => (hf a).2⟩
  take n := ⟨.take n, .take n⟩
  line := ⟨.line, .line⟩

end

/-- A read of a cursor. The widths of the lengths in use are 1, 4 and 8. -/
inductive Reading where
  | figure (f : Figure.Form)
  | take (n : Nat)
  | skip (n : Nat)
  | run (width : Nat)
  | line
  deriving DecidableEq, Repr

inductive Datum where
  | figure (x : Figure)
  | bytes (bs : Bytes)
  | nothing
  deriving DecidableEq, Repr

inductive Field where
  | figure (x : Figure)
  | run (width : Nat) (bs : Bytes) (fits : bs.length < 256 ^ width)
  | line (bs : Bytes) (unbroken : 0x0a ∉ bs)

namespace Field

def reading : Field → Reading
  | .figure x => .figure x.form
  | .run width _ _ => .run width
  | .line _ _ => .line

def datum : Field → Datum
  | .figure x => .figure x
  | .run _ bs _ => .bytes bs
  | .line bs _ => .bytes bs

def encode : Field → Bytes
  | .figure x => x.digits
  | .run width bs _ => Word.digits width bs.length ++ bs
  | .line bs _ => bs ++ [0x0a]

def encodeAll (fields : List Field) : Bytes := fields.flatMap encode

end Field

/-- The bytes that a read is to take, and the value that they write. -/
inductive Spells : Reading → Bytes → Datum → Prop where
  | field (f : Field) : Spells f.reading f.encode f.datum
  | take (bs : Bytes) : Spells (.take bs.length) bs (.bytes bs)
  | skip (bs : Bytes) : Spells (.skip bs.length) bs .nothing

namespace Reading
open Cursor Process

def perform : Reading → Read Datum
  | .figure f => .figure <$> f.read
  | .take n => .bytes <$> Cursor.take n
  | .skip n => (fun _ => .nothing) <$> Cursor.skip n
  | .run width => .bytes <$> Cursor.run width
  | .line => .bytes <$> Cursor.line

theorem perform_field (f : Field) {c c' : Cursor} (h : Over f.encode c c') :
    f.reading.perform c = .ok (f.datum, c') := by
  obtain ⟨p, rest⟩ := c
  obtain ⟨hrest, hposition⟩ := h
  obtain ⟨p', rest'⟩ := c'
  dsimp only at hrest hposition
  subst hrest hposition
  cases f with
  | figure x =>
    exact Read.map_eq_ok_iff.mpr ⟨x, Figure.Form.read_eq_ok_iff.mpr ⟨rfl, rfl, rfl⟩, rfl⟩
  | run width bs fits =>
    have hrun := run_append p width bs rest' fits
    refine Read.map_eq_ok_iff.mpr ⟨bs, ?_, rfl⟩
    simp only [Field.encode, List.append_assoc, List.length_append, Word.digits_length]
    rw [hrun, Nat.add_assoc]
  | line bs unbroken =>
    have hline := line_append p bs rest' unbroken
    refine Read.map_eq_ok_iff.mpr ⟨bs, ?_, rfl⟩
    simp only [Field.encode, List.append_assoc, List.length_append]
    exact hline

/-- A read succeeds where bytes lie that it is to take, and gives what they write. -/
theorem perform_eq_ok_iff {r : Reading} {c c' : Cursor} {d : Datum} :
    r.perform c = .ok (d, c') ↔ ∃ used, Over used c c' ∧ Spells r used d := by
  constructor
  · intro h
    cases r with
    | figure f =>
      obtain ⟨x, hx, rfl⟩ := Read.map_eq_ok_iff.mp h
      obtain ⟨rfl, hover⟩ := Figure.Form.read_eq_ok_iff.mp hx
      exact ⟨x.digits, hover, .field (.figure x)⟩
    | take n =>
      obtain ⟨bs, hbs, rfl⟩ := Read.map_eq_ok_iff.mp h
      obtain ⟨hrest, rfl, hposition⟩ := take_eq_ok_iff.mp hbs
      exact ⟨bs, ⟨hrest, hposition⟩, .take bs⟩
    | skip n =>
      obtain ⟨_, hskip, rfl⟩ := Read.map_eq_ok_iff.mp h
      obtain ⟨bs, d, hbs, ⟨⟩⟩ := Read.bind_eq_ok_iff.mp hskip
      obtain ⟨hrest, rfl, hposition⟩ := take_eq_ok_iff.mp hbs
      exact ⟨bs, ⟨hrest, hposition⟩, .skip bs⟩
    | run width =>
      obtain ⟨bs, hbs, rfl⟩ := Read.map_eq_ok_iff.mp h
      obtain ⟨n, d, hn, hrun⟩ := Read.bind_eq_ok_iff.mp hbs
      obtain ⟨digits, hdigits, rfl⟩ := Read.map_eq_ok_iff.mp hn
      obtain ⟨hrest, rfl, hposition⟩ := take_eq_ok_iff.mp hdigits
      obtain ⟨hrest', hlength, hposition'⟩ := take_eq_ok_iff.mp hrun
      have hfits : bs.length < 256 ^ digits.length := hlength ▸ Word.value_lt digits
      have hspelt : Word.digits digits.length bs.length = digits := by
        rw [hlength]
        exact Word.digits_value digits
      refine ⟨digits ++ bs, ⟨?_, ?_⟩, ?_⟩
      · rw [hrest, hrest', List.append_assoc]
      · rw [hposition', hposition, List.length_append, hlength, Nat.add_assoc]
      · have hfield := Spells.field (.run digits.length bs hfits)
        rwa [Field.encode, hspelt] at hfield
    | line =>
      obtain ⟨bs, hbs, rfl⟩ := Read.map_eq_ok_iff.mp h
      obtain ⟨hrest, hunbroken, hposition⟩ := line_ok hbs
      refine ⟨bs ++ [0x0a], ⟨?_, ?_⟩, .field (.line bs hunbroken)⟩
      · rw [hrest, List.append_assoc]
        rfl
      · rw [hposition, List.length_append]
        rfl
  · rintro ⟨used, hover, hspells⟩
    cases hspells with
    | field f => exact perform_field f hover
    | take bs =>
      exact Read.map_eq_ok_iff.mpr ⟨_, take_eq_ok_iff.mpr ⟨hover.rest, rfl, hover.position⟩, rfl⟩
    | skip bs =>
      have htake := take_eq_ok_iff.mpr ⟨hover.rest, rfl, hover.position⟩
      exact Read.map_eq_ok_iff.mpr ⟨(), Read.bind_eq_ok_iff.mpr ⟨_, _, htake, rfl⟩, rfl⟩

theorem perform_failsShort (r : Reading) : r.perform.FailsShort := by
  have hs := Read.Closed.failsShort
  cases r with
  | figure f =>
    rw [perform, f.read_eq]
    exact (hs.map _ (hs.map _ (hs.take _))).2
  | take n => exact (hs.map _ (hs.take n)).2
  | skip n => exact (hs.map _ (hs.skip n)).2
  | run width => exact (hs.map _ (hs.run width)).2
  | line => exact (hs.map _ hs.line).2

/-- What is cut off within a field is not read as that field. -/
theorem perform_cut (f : Field) {p : Nat} {bs : Bytes} (hpartial : bs <+: f.encode)
    (hcut : bs.length < f.encode.length) : ∃ s, f.reading.perform ⟨p, bs⟩ = .error s := by
  rcases hread : f.reading.perform ⟨p, bs⟩ with s | ⟨d, c'⟩
  · exact ⟨s, rfl⟩
  obtain ⟨used, hused, hspells⟩ := perform_eq_ok_iff.mp hread
  obtain ⟨more, hmore⟩ := hpartial
  -- with the rest of the field in place the read takes no more, yet the field is longer
  have hwhole : f.reading.perform ⟨p, f.encode⟩ = .ok (d, ⟨c'.position, c'.rest ++ more⟩) := by
    refine perform_eq_ok_iff.mpr ⟨used, ⟨?_, hused.position⟩, hspells⟩
    have hrest : bs = used ++ c'.rest := hused.rest
    rw [← hmore, hrest, List.append_assoc]
  have hover : Over f.encode ⟨p, f.encode⟩ ⟨p + f.encode.length, []⟩ :=
    ⟨(List.append_nil _).symm, rfl⟩
  have hfield := perform_field f hover
  rw [hwhole] at hfield
  simp only [Except.ok.injEq, Prod.mk.injEq, Cursor.mk.injEq, List.append_eq_nil_iff] at hfield
  have hmore' := congrArg List.length hmore
  rw [hfield.2.2.2, List.append_nil] at hmore'
  omega
end Reading

end PickledModel
