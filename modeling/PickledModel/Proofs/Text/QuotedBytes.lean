import PickledModel.Proofs.Text.EscapeGrammar

/-! Quoted byte strings. An escape is read just as the grammar has it, whatever stands
behind it, so the reader accepts the byte strings of the grammar and gives what they
stand for. -/

set_option autoImplicit false

namespace PickledModel.Text

theorem letterEscape?_eq_some_iff {b c : UInt8} :
    letterEscape? b = some c ↔ (b ∈ [0x5c, 0x27, 0x22] ∧ c = b) ∨ (b, c) ∈ letters := by
  constructor
  · intro h
    unfold letterEscape? at h
    by_cases hself : b = 0x5c ∨ b = 0x27 ∨ b = 0x22
    · rw [if_pos hself] at h
      exact .inl ⟨by simpa using hself, (Option.some.inj h).symm⟩
    · rw [if_neg hself] at h
      simp only [ite_eq_iff, Option.some.injEq, reduceCtorEq, and_false, or_false] at h
      right
      rcases h with ⟨rfl, rfl⟩ | ⟨-, ⟨rfl, rfl⟩ | ⟨-, ⟨rfl, rfl⟩ | ⟨-, ⟨rfl, rfl⟩ | ⟨-, ⟨rfl, rfl⟩ |
        ⟨-, ⟨rfl, rfl⟩ | ⟨-, ⟨rfl, rfl⟩⟩⟩⟩⟩⟩⟩
      all_goals decide
  · rintro (⟨hb, rfl⟩ | hb)
    · simp only [List.mem_cons, List.not_mem_nil, or_false] at hb
      exact if_pos hb
    · simp only [letters, List.mem_cons, Prod.mk.injEq, List.not_mem_nil, or_false] at hb
      rcases hb with ⟨rfl, rfl⟩ | ⟨rfl, rfl⟩ | ⟨rfl, rfl⟩ | ⟨rfl, rfl⟩ | ⟨rfl, rfl⟩ | ⟨rfl, rfl⟩ |
        ⟨rfl, rfl⟩
      all_goals rfl

theorem letterEscape?_eq_none_iff {b : UInt8} :
    letterEscape? b = none ↔ b ∉ [0x5c, 0x27, 0x22] ∧ b ∉ letters.map Prod.fst := by
  rw [Option.eq_none_iff_forall_ne_some]
  constructor
  · intro h
    refine ⟨fun hb => h b (letterEscape?_eq_some_iff.mpr (.inl ⟨hb, rfl⟩)), fun hb => ?_⟩
    obtain ⟨⟨b, c⟩, hc, rfl⟩ := List.mem_map.mp hb
    exact h c (letterEscape?_eq_some_iff.mpr (.inr hc))
  · rintro ⟨hself, hletter⟩ c h
    rcases letterEscape?_eq_some_iff.mp h with ⟨hb, -⟩ | hb
    · exact hself hb
    · exact hletter (List.mem_map.mpr ⟨_, hb, rfl⟩)

/-- The longest run, of at most `n` bytes. -/
theorem takeWhile_take_eq_iff {p : UInt8 → Bool} {n : Nat} {ds rest : Bytes} :
    ((ds ++ rest).take n).takeWhile p = ds ↔
      (∀ b ∈ ds, p b = true) ∧ ds.length ≤ n ∧
        (ds.length < n → ∀ b ∈ rest.head?, p b = false) := by
  induction ds generalizing n with
  | nil =>
    cases n with
    | zero => simp
    | succ n =>
      cases rest with
      | nil => simp
      | cons b rest => simp [List.takeWhile_cons]
  | cons d ds ih =>
    cases n with
    | zero => simp
    | succ n =>
      rw [List.cons_append, List.take_succ_cons, List.takeWhile_cons, List.forall_mem_cons]
      by_cases hd : p d = true
      · simp [hd, ih]
      · simp [hd]

theorem Ends.of_mem {e rest : Bytes} {b : UInt8} (hb : b ∈ e) (h : isOctal b = false) :
    Ends e rest := by
  rintro ⟨n, hn⟩
  rw [(octalNumber_iff.mp hn).1 b hb] at h
  cases h

theorem isOctal_eq_false_iff {b : UInt8} : isOctal b = false ↔ ∀ d, ¬OctalDigit b d := by
  rw [← Bool.not_eq_true, isOctal_iff, not_exists]

theorem isOctal_of_letterEscape? {b c : UInt8} (h : letterEscape? b = some c) :
    isOctal b = false := by
  have hself : ([0x5c, 0x27, 0x22] : Bytes).all (!isOctal ·) = true := by decide
  have hletters : letters.all (!isOctal ·.1) = true := by decide
  rcases letterEscape?_eq_some_iff.mp h with ⟨hb, -⟩ | hb
  · simpa using List.all_eq_true.mp hself b hb
  · simpa using List.all_eq_true.mp hletters _ hb

theorem escape?_letter {b c : UInt8} (bs : Bytes) (hnewline : b ≠ 0x0a)
    (h : letterEscape? b = some c) : escape? (b :: bs) = some ([c], 1) := by
  rw [escape?, if_neg hnewline, h]

theorem escape?_hex (bs : Bytes) :
    escape? (0x78 :: bs) =
      if (bs.take 2).length = 2 then
        (hexadecimal? (bs.take 2)).map fun n => ([UInt8.ofNat n], 3)
      else none := rfl

theorem escape?_octal {b : UInt8} (bs : Bytes) (h : isOctal b = true) :
    escape? (b :: bs) =
      some ([octalByte (((b :: bs).take 3).takeWhile isOctal)],
        (((b :: bs).take 3).takeWhile isOctal).length) := by
  have hne : ∀ c, isOctal c = false → b ≠ c := by
    rintro c hc rfl
    rw [h] at hc
    cases hc
  have hletter : letterEscape? b = none := by
    rw [Option.eq_none_iff_forall_ne_some]
    intro c hc
    rw [isOctal_of_letterEscape? hc] at h
    cases h
  rw [escape?, if_neg (hne 0x0a (by decide)), hletter]
  dsimp only
  rw [if_neg (hne 0x78 (by decide)), if_pos h]

theorem escape?_unknown {b : UInt8} (bs : Bytes) (h : ¬HasMeaning b) :
    escape? (b :: bs) = some ([0x5c, b], 1) := by
  simp only [HasMeaning, not_or] at h
  obtain ⟨hnewline, hself, hletter, hx, hoctal⟩ := h
  rw [escape?, if_neg hnewline, letterEscape?_eq_none_iff.mpr ⟨hself, hletter⟩]
  dsimp only
  rw [if_neg hx, if_neg (by rwa [isOctal_iff])]

/-- An escape is read as the grammar has it, up to the first byte behind it. -/
theorem escape?_of_escape {e found : Bytes} (rest : Bytes) (he : Escape SignedHexNumber e found)
    (hends : Ends e rest) : escape? (e ++ rest) = some (found, e.length) := by
  cases he with
  | newline => rfl
  | @quote b hb =>
    have hnewline : b ≠ 0x0a := by
      rintro rfl
      exact absurd hb (by decide)
    exact escape?_letter rest hnewline (letterEscape?_eq_some_iff.mpr (.inl ⟨hb, rfl⟩))
  | @letter b c hb =>
    have hnewline : b ≠ 0x0a := by
      rintro rfl
      have hb : (0x0a : UInt8) ∈ letters.map Prod.fst := List.mem_map.mpr ⟨_, hb, rfl⟩
      exact absurd hb (by decide)
    exact escape?_letter rest hnewline (letterEscape?_eq_some_iff.mpr (.inr hb))
  | @hex ds n hlength hds =>
    have htake : (ds ++ rest).take 2 = ds := by rw [← hlength, List.take_left]
    rw [List.cons_append, escape?_hex, htake, if_pos hlength,
      (hexadecimal?_eq_some_iff (Nat.le_of_eq hlength.symm)).mpr hds, List.length_cons, hlength]
    rfl
  | @octal _ n hpos hlength hds =>
    obtain ⟨hall, rfl⟩ := octalNumber_iff.mp hds
    have hrun : ((e ++ rest).take 3).takeWhile isOctal = e := by
      refine takeWhile_take_eq_iff.mpr ⟨hall, hlength, fun hlt b hb => ?_⟩
      exact isOctal_eq_false_iff.mpr (hends ⟨_, hds⟩ hlt b hb)
    obtain ⟨b, e, rfl⟩ := List.exists_cons_of_length_pos hpos
    rw [List.cons_append] at hrun ⊢
    rw [escape?_octal _ (hall b List.mem_cons_self), hrun]
    rfl
  | unknown hb => exact escape?_unknown rest hb

def StartsWithEscape (bs found : Bytes) (used : Nat) : Prop :=
  ∃ e rest, bs = e ++ rest ∧ used = e.length ∧ Escape SignedHexNumber e found ∧ Ends e rest

theorem startsWithEscape_letter {b c : UInt8} (bs : Bytes) (h : letterEscape? b = some c) :
    StartsWithEscape (b :: bs) [c] 1 := by
  have hends : Ends [b] bs := .of_mem List.mem_cons_self (isOctal_of_letterEscape? h)
  refine ⟨[b], bs, rfl, rfl, ?_, hends⟩
  rcases letterEscape?_eq_some_iff.mp h with ⟨hb, rfl⟩ | hb
  · exact .quote hb
  · exact .letter hb

theorem startsWithEscape_hex {bs : Bytes} {n : Nat} (hlength : (bs.take 2).length = 2)
    (h : hexadecimal? (bs.take 2) = some n) :
    StartsWithEscape (0x78 :: bs) [UInt8.ofNat n] 3 := by
  have hds := (hexadecimal?_eq_some_iff (Nat.le_of_eq hlength.symm)).mp h
  refine ⟨0x78 :: bs.take 2, bs.drop 2, ?_, ?_, .hex hlength hds, ?_⟩
  · rw [List.cons_append, List.take_append_drop]
  · rw [List.length_cons, hlength]
  · exact .of_mem List.mem_cons_self (by decide)

theorem startsWithEscape_octal {b : UInt8} {bs ds : Bytes} (hb : isOctal b = true)
    (hds : ((b :: bs).take 3).takeWhile isOctal = ds) :
    StartsWithEscape (b :: bs) [octalByte ds] ds.length := by
  obtain ⟨rest, hrest⟩ := (List.takeWhile_prefix isOctal).trans (List.take_prefix 3 (b :: bs))
  have hpos : 0 < ds.length := by
    rw [← hds, List.take_succ_cons, List.takeWhile_cons, hb, if_pos rfl]
    exact Nat.succ_pos _
  rw [hds] at hrest
  rw [← hrest] at hds ⊢
  obtain ⟨hall, hlength, hnext⟩ := takeWhile_take_eq_iff.mp hds
  have hends : Ends ds rest := fun _ hlt c hc => isOctal_eq_false_iff.mp (hnext hlt c hc)
  exact ⟨ds, rest, rfl, rfl, .octal hpos hlength (octalNumber_iff.mpr ⟨hall, rfl⟩), hends⟩

theorem not_hasMeaning {b : UInt8} (hnewline : b ≠ 0x0a) (hletter : letterEscape? b = none)
    (hx : b ≠ 0x78) (hoctal : isOctal b = false) : ¬HasMeaning b := by
  obtain ⟨hself, hletters⟩ := letterEscape?_eq_none_iff.mp hletter
  rintro (h | h | h | h | ⟨d, hd⟩)
  · exact hnewline h
  · exact hself h
  · exact hletters h
  · exact hx h
  · exact isOctal_eq_false_iff.mp hoctal d hd

/-- What is read as an escape is one of the grammar. -/
theorem startsWithEscape_of_escape? {bs found : Bytes} {used : Nat}
    (h : escape? bs = some (found, used)) : StartsWithEscape bs found used := by
  cases bs with
  | nil => cases h
  | cons b bs =>
    by_cases hnewline : b = 0x0a
    · subst hnewline
      cases h
      exact ⟨[0x0a], bs, rfl, rfl, .newline, .of_mem List.mem_cons_self (by decide)⟩
    cases hletter : letterEscape? b with
    | some c =>
      rw [escape?_letter bs hnewline hletter] at h
      cases h
      exact startsWithEscape_letter bs hletter
    | none =>
      by_cases hx : b = 0x78
      · subst hx
        rw [escape?_hex] at h
        split at h
        · next hlength =>
          obtain ⟨n, hn, heq⟩ := Option.map_eq_some_iff.mp h
          cases heq
          exact startsWithEscape_hex hlength hn
        · cases h
      cases hoctal : isOctal b with
      | true =>
        rw [escape?_octal bs hoctal] at h
        cases h
        exact startsWithEscape_octal hoctal rfl
      | false =>
        have hb : ¬HasMeaning b := not_hasMeaning hnewline hletter hx hoctal
        rw [escape?_unknown bs hb] at h
        cases h
        exact ⟨[b], bs, rfl, rfl, .unknown hb, .of_mem List.mem_cons_self hoctal⟩

theorem unescaped_nil_iff {number : Bytes → Nat → Prop} {out : Bytes} :
    Unescaped number [] out ↔ out = [] := by
  constructor
  · intro h
    cases h
    rfl
  · rintro rfl
    exact .nil

theorem unescaped_plain_iff {number : Bytes → Nat → Prop} {b : UInt8} {bs out : Bytes}
    (hb : b ≠ 0x5c) :
    Unescaped number (b :: bs) out ↔ ∃ v, Unescaped number bs v ∧ out = b :: v := by
  constructor
  · intro h
    cases h with
    | plain _ hbs => exact ⟨_, hbs, rfl⟩
    | escape => exact absurd rfl hb
  · rintro ⟨v, hv, rfl⟩
    exact .plain hb hv

theorem unescaped_escape_iff {bs out : Bytes} :
    Unescaped SignedHexNumber (0x5c :: bs) out ↔
      ∃ found used v, escape? bs = some (found, used) ∧
        Unescaped SignedHexNumber (bs.drop used) v ∧ out = found ++ v := by
  constructor
  · intro h
    generalize hline : 0x5c :: bs = line at h
    cases h with
    | nil => cases hline
    | plain hb => exact absurd (List.cons.inj hline).1.symm hb
    | @escape e found rest v he hends hrest =>
      obtain ⟨-, rfl⟩ := List.cons.inj hline
      refine ⟨found, e.length, v, escape?_of_escape rest he hends, ?_, rfl⟩
      rwa [List.drop_left]
  · rintro ⟨found, used, v, h, hv, rfl⟩
    obtain ⟨e, rest, rfl, rfl, he, hends⟩ := startsWithEscape_of_escape? h
    rw [List.drop_left] at hv
    exact .escape he hends hv

theorem unescape?_go_eq_some_iff {fuel : Nat} {bs done out : Bytes} (h : bs.length ≤ fuel) :
    unescape?.go fuel bs done = some out ↔
      ∃ v, Unescaped SignedHexNumber bs v ∧ out = done.reverse ++ v := by
  induction fuel generalizing bs done with
  | zero =>
    obtain rfl := List.length_eq_zero_iff.mp (Nat.le_zero.mp h)
    simp [unescape?.go, unescaped_nil_iff, eq_comm]
  | succ fuel ih =>
    cases bs with
    | nil => simp [unescape?.go, unescaped_nil_iff, eq_comm]
    | cons b bs =>
      rw [List.length_cons] at h
      rw [unescape?.go]
      split_ifs with hb
      · subst hb
        simp only [unescaped_escape_iff]
        cases hescape : escape? bs with
        | none => simp
        | some read =>
          obtain ⟨found, used⟩ := read
          have hlength : (bs.drop used).length ≤ fuel := by
            rw [List.length_drop]
            omega
          dsimp only
          rw [ih hlength]
          constructor
          · rintro ⟨v, hv, rfl⟩
            exact ⟨_, ⟨found, used, v, rfl, hv, rfl⟩, by simp⟩
          · rintro ⟨w, ⟨_, _, v, hread, hv, rfl⟩, rfl⟩
            cases hread
            exact ⟨v, hv, by simp⟩
      · rw [ih (Nat.le_of_succ_le_succ h)]
        simp only [unescaped_plain_iff hb]
        constructor
        · rintro ⟨v, hv, rfl⟩
          exact ⟨_, ⟨v, hv, rfl⟩, by simp⟩
        · rintro ⟨w, ⟨v, hv, rfl⟩, rfl⟩
          exact ⟨v, hv, by simp⟩

theorem quoted?_eq_some_iff {line body : Bytes} :
    quoted? line = some body ↔ ∃ q, (q = 0x27 ∨ q = 0x22) ∧ line = q :: (body ++ [q]) := by
  cases line with
  | nil => simp [quoted?]
  | cons q inner =>
    rw [quoted?]
    constructor
    · intro h
      split_ifs at h with hq
      obtain rfl := Option.some.inj h
      exact ⟨q, hq.1, by rw [List.dropLast_append_getLast? q hq.2]⟩
    · rintro ⟨q, hq, heq⟩
      obtain ⟨rfl, rfl⟩ := List.cons.inj heq
      rw [if_pos ⟨hq, List.getLast?_concat⟩, List.dropLast_concat]

/-- What the reader of quoted byte strings accepts. -/
theorem unquote?_eq_some_iff {line out : Bytes} :
    unquote? line = some out ↔ Quoted SignedHexNumber line out := by
  rw [unquote?, Option.bind_eq_some_iff]
  simp only [quoted?_eq_some_iff, unescape?, unescape?_go_eq_some_iff (Nat.le_refl _),
    List.reverse_nil, List.nil_append]
  constructor
  · rintro ⟨body, ⟨q, hq, rfl⟩, v, hv, rfl⟩
    exact .mk hq hv
  · rintro ⟨hq, hbody⟩
    exact ⟨_, ⟨_, hq, rfl⟩, _, hbody, rfl⟩

end PickledModel.Text
