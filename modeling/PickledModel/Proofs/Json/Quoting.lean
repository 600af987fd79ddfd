import PickledModel.Json.Printer
import PickledModel.Json.Reader

/-! Quoted text. The reader takes each escaped character for the character, so what is
quoted is read back, and it ends at its own closing quote. -/

set_option autoImplicit false

namespace PickledModel.Json

def written (c : Char) : StringUnit :=
  if c.toNat < 0x20 ∧ c ∉ ['\x08', '\x0c', '\n', '\r', '\t'] then .code c.toNat else .char c

theorem hexChar?_digitChar {n : Nat} (h : n < 16) : hexChar? (Nat.digitChar n) = some n := by
  have hall : ∀ k < 16, hexChar? (Nat.digitChar k) = some k := by decide
  exact hall n h

theorem stringTail?_plain {c : Char} (hquote : c ≠ '"') (hslash : c ≠ '\\')
    (hcontrol : ¬c.toNat < 0x20) (done : List StringUnit) (w : List Char) :
    stringTail? done (c :: w) = stringTail? (.char c :: done) w := by
  rw [stringTail?.eq_def]
  split
  · next h => cases h
  · next h => exact absurd (List.cons.inj h).1 hquote
  · next h => exact absurd (List.cons.inj h).1 hslash
  · next h => exact absurd (List.cons.inj h).1 hslash
  · next h =>
    obtain ⟨rfl, rfl⟩ := List.cons.inj h
    exact if_neg (by simp [hcontrol, hslash])

/-- The reader takes an escaped character for the character. -/
theorem stringTail?_escapeChar (c : Char) (done : List StringUnit) (w : List Char) :
    stringTail? done ((escapeChar c).toList ++ w) = stringTail? (written c :: done) w := by
  by_cases hshort : c ∈ ['"', '\\', '\x08', '\x0c', '\n', '\r', '\t']
  · simp only [List.mem_cons, List.not_mem_nil, or_false] at hshort
    rcases hshort with rfl | rfl | rfl | rfl | rfl | rfl | rfl <;> rfl
  simp only [List.mem_cons, List.not_mem_nil, or_false, not_or] at hshort
  obtain ⟨hquote, hslash, hback, hform, hnewline, hreturn, htab⟩ := hshort
  by_cases hcontrol : c.toNat < 0x20
  · have hhigh := hexChar?_digitChar (show c.toNat / 16 < 16 by omega)
    have hlow := hexChar?_digitChar (show c.toNat % 16 < 16 by omega)
    have hzero : hexChar? '0' = some 0 := by decide
    have hunit : codeUnit? '0' '0' (Nat.digitChar (c.toNat / 16)) (Nat.digitChar (c.toNat % 16)) =
        some c.toNat := by
      simp only [codeUnit?, hzero, hhigh, hlow, Option.bind_eq_bind, Option.bind_some, pure]
      congr 1
      omega
    have hwritten : written c = .code c.toNat := by
      simp [written, hcontrol, hback, hform, hnewline, hreturn, htab]
    simp only [escapeChar, hquote, hslash, hback, hform, hnewline, hreturn, htab, hcontrol,
      if_true, if_false, String.toList_append, String.toList_ofList, hwritten]
    change stringTail? done ('\\' :: 'u' :: '0' :: '0' :: _ :: _ :: w) = _
    rw [stringTail?, hunit]
  · have hwritten : written c = .char c := by simp [written, hcontrol]
    simp only [escapeChar, hquote, hslash, hback, hform, hnewline, hreturn, htab, hcontrol,
      if_false, String.toList_singleton, List.singleton_append, hwritten]
    exact stringTail?_plain hquote hslash hcontrol done w

def quoted (cs : List Char) : List Char := cs.flatMap fun c => (escapeChar c).toList

theorem toList_quote (s : String) : (quote s).toList = '"' :: (quoted s.toList ++ ['"']) := by
  have hfold : ∀ (cs : List Char) (out : String),
      (cs.foldl (fun out c => out ++ escapeChar c) out).toList = out.toList ++ quoted cs := by
    intro cs
    induction cs with
    | nil => simp [quoted]
    | cons c cs ih =>
      intro out
      rw [List.foldl_cons, ih, String.toList_append, List.append_assoc]
      rfl
  rw [quote, String.toList_push, String.foldl_eq_foldl_toList, hfold]
  rfl

theorem stringTail?_quoted (cs : List Char) (done : List StringUnit) (w : List Char) :
    stringTail? done (quoted cs ++ '"' :: w) = some (done.reverse ++ cs.map written, w) := by
  induction cs generalizing done with
  | nil =>
    rw [List.map_nil, List.append_nil]
    rfl
  | cons c cs ih =>
    have hsplit : quoted (c :: cs) = (escapeChar c).toList ++ quoted cs := rfl
    rw [hsplit, List.append_assoc, stringTail?_escapeChar, ih, List.reverse_cons,
      List.append_assoc]
    rfl

theorem characters?_written (cs done : List Char) :
    characters? done (cs.map written) = some (done.reverse ++ cs) := by
  induction cs generalizing done with
  | nil => rw [List.map_nil, characters?, List.append_nil]
  | cons c cs ih =>
    have hstep : characters? done (written c :: cs.map written) =
        characters? (c :: done) (cs.map written) := by
      by_cases hcode : c.toNat < 0x20 ∧ c ∉ ['\x08', '\x0c', '\n', '\r', '\t']
      · have hlow := hcode.1
        rw [written, if_pos hcode, characters?.eq_def]
        dsimp only
        rw [if_neg (by omega), if_neg (by omega), Char.ofNat_toNat]
      · rw [written, if_neg hcode, characters?]
    rw [List.map_cons, hstep, ih, List.reverse_cons, List.append_assoc]
    rfl

/-- A quoted text is one token, which is read as the text. -/
theorem token?_quote (s : String) (w : List Char) :
    token? ((quote s).toList ++ w) = some (.string (s.toList.map written), w) ∧
      text? (s.toList.map written) = some s := by
  constructor
  · rw [toList_quote, List.cons_append, List.append_assoc, token?]
    rw [List.singleton_append, stringTail?_quoted]
    rfl
  · rw [text?, characters?_written, Option.map_some]
    exact congrArg some String.ofList_toList

/-- A quoted text ends at its own closing quote. -/
theorem quote_append_inj {s t : String} {u v : List Char}
    (h : (quote s).toList ++ u = (quote t).toList ++ v) : s = t ∧ u = v := by
  obtain ⟨htoken, htext⟩ := token?_quote s u
  obtain ⟨htoken', htext'⟩ := token?_quote t v
  rw [h, htoken'] at htoken
  obtain ⟨hunits, rfl⟩ := Prod.mk.inj (Option.some.inj htoken)
  rw [← Token.string.inj hunits, htext'] at htext
  exact ⟨(Option.some.inj htext).symm, rfl⟩

end PickledModel.Json
